import Lalr.Proofs.Automaton.Canonical

/-!
# Lookaheads are exact

The lookahead of an item is what LR(1) validity gives it for the strings that
lead to its state, all taken together (`mem_lookahead_iff`).

What an item receives is valid: terminals come along links, and a link within a
state keeps the string while a link to the next state adds a symbol
(`IsComplete.exists_lr1Valid`). What is valid is received: validity has a link
for each of its rules (`IsComplete.receives_of_lr1Valid`).
-/

namespace Lalr

open Grammar

variable {g : Grammar} {γ : List Symbol} {x : Dotted} {t : TerminalId}

namespace Automaton.IsComplete

variable {m : Automaton} {i : StateId} {kernel items : ItemSet} {core : Core} {k : ItemId}

/-- The kernel of the start state has an item for the start of the augmented grammar. -/
theorem exists_start_mem (hm : m.IsComplete g) : ∃ kernel items k,
    m.sets[startState]? = some (kernel, items) ∧ (⟨acceptProduction, 0⟩, k) ∈ kernel.toList := by
  obtain ⟨kernel, items, hstart, hkernel⟩ := hm.collection.start
  have hhas : kernel.Has ⟨acceptProduction, 0⟩ := (hkernel _).mpr rfl
  obtain ⟨k, hk⟩ : ∃ k, (⟨acceptProduction, 0⟩, k) ∈ kernel.toList :=
    ItemSet.exists_mem_of_has hhas
  exact ⟨kernel, items, k, hstart, hk⟩

/-- What an item generates is valid for every string that leads to its state. -/
theorem lr1Valid_of_generates (hm : m.IsComplete g) (ht : m.Generates g k t)
    (hi : m.sets[i]? = some (kernel, items)) (hk : (core, k) ∈ items.toList) :
    ∃ γ, m.follow γ = some i ∧ g.Lr1Valid γ core.dotted t := by
  cases ht with
  | start hstart hk' =>
    obtain ⟨rfl, rfl⟩ := hm.item_unique hi hstart hk (hm.kernel_subset hstart hk')
    exact ⟨[], rfl, .start⟩
  | @first i' K I c p β h _ _ hi' hh hp ht hk' =>
    obtain ⟨rfl, rfl⟩ := hm.item_unique hi hi' hk hk'
    obtain ⟨γ, hfollow, hhas⟩ := hm.exists_follow_has_iff hi'
    have hvalid : g.Lr0Valid γ c.dotted := (hhas _).mp (ItemSet.has_of_mem hh)
    exact ⟨γ, hfollow, .first hvalid hp ht⟩

/-- What an item receives is valid for some string that leads to its state. -/
theorem exists_lr1Valid (hm : m.IsComplete g) (ht : m.Receives g k t)
    (hi : m.sets[i]? = some (kernel, items)) (hk : (core, k) ∈ items.toList) :
    ∃ γ, m.follow γ = some i ∧ g.Lr1Valid γ core.dotted t := by
  obtain ⟨source, hpath, hsource⟩ := ht
  induction hpath generalizing i kernel items core with
  | refl => exact hm.lr1Valid_of_generates hsource hi hk
  | tail _ hpass ih =>
    cases hpass with
    | predict hi' hh hp hβ hk' =>
      obtain ⟨rfl, rfl⟩ := hm.item_unique hi hi' hk hk'
      obtain ⟨γ, hfollow, hvalid⟩ := ih hi' hh
      exact ⟨γ, hfollow, hvalid.inherit hp hβ⟩
    | @shift i' j K I K' I' c X β _ _ hi' hgoes hj hh hX hk' =>
      obtain ⟨rfl, rfl⟩ := hm.item_unique hi hj hk (hm.kernel_subset hj hk')
      obtain ⟨γ, hfollow, hvalid⟩ := ih hi' hh
      have hadvance := (hm.exists_advanced hgoes hi' hj hh hX).1
      refine ⟨γ ++ [X], follow_concat_eq_some_iff.mpr
        ⟨i', hfollow, hm.step?_eq_some_iff.mpr hgoes⟩, ?_⟩
      rw [hadvance]
      exact hvalid.shift hX

/-- What is valid for a string that leads to a state is received by an item of that state. -/
theorem exists_receives (hm : m.IsComplete g) (h : g.Lr1Valid γ x t)
    (hfollow : m.follow γ = some i) (hi : m.sets[i]? = some (kernel, items)) :
    ∃ core k, (core, k) ∈ items.toList ∧ core.dotted = x ∧ m.Receives g k t := by
  induction h generalizing i kernel items with
  | start =>
    cases hfollow
    obtain ⟨K, I, k, hstart, hk⟩ := hm.exists_start_mem
    cases hi.symm.trans hstart
    exact ⟨_, k, hm.kernel_subset hi hk, rfl, k, .refl, .start hi hk⟩
  | @first γ y p β u hx hp hu =>
    obtain ⟨K, I, hi', hhas⟩ := hm.has_iff_of_follow hfollow
    cases hi.symm.trans hi'
    obtain ⟨c, h, hh, rfl⟩ := ((hhas y).mpr hx).exists_mem
    obtain ⟨k, hk⟩ := hm.exists_predicted hi hh hp
    exact ⟨⟨p, 0⟩, k, hk, rfl, k, .refl, .first hi hh hp hu hk⟩
  | @inherit γ y p β u _ hp hβ ih =>
    obtain ⟨c, h, hh, rfl, ht⟩ := ih hfollow hi
    obtain ⟨k, hk⟩ := hm.exists_predicted hi hh hp
    exact ⟨⟨p, 0⟩, k, hk, rfl, ht.passes (.predict hi hh hp hβ hk)⟩
  | @shift γ y X β t _ hX ih =>
    obtain ⟨i', hfollow', hstep⟩ := follow_concat_eq_some_iff.mp hfollow
    have hgoes := hm.step?_eq_some_iff.mp hstep
    obtain ⟨K, I, hi', -⟩ := hm.has_iff_of_follow hfollow'
    obtain ⟨c, h, hh, rfl, ht⟩ := ih hfollow' hi'
    obtain ⟨hadvance, k, hk⟩ := hm.exists_advanced hgoes hi' hi hh hX
    exact ⟨c.advance, k, hm.kernel_subset hi hk, hadvance,
      ht.passes (.shift hi' hgoes hi hh hX hk)⟩

/-- What is valid for a string that leads to a state is received there. -/
theorem receives_of_lr1Valid (hm : m.IsComplete g) (h : g.Lr1Valid γ core.dotted t)
    (hfollow : m.follow γ = some i) (hi : m.sets[i]? = some (kernel, items))
    (hk : (core, k) ∈ items.toList) : m.Receives g k t := by
  obtain ⟨c, k', hk', heq, ht⟩ := hm.exists_receives h hfollow hi
  obtain rfl : c = core := Core.dotted_inj.mp heq
  exact (hm.collection.closed hi).isOver.id_unique hk' hk ▸ ht

/-- An item of a state looks at a terminal exactly if it is valid on it for a string that leads
there. -/
theorem looks_iff_lr1Valid (hm : m.IsComplete g) (hi : m.sets[i]? = some (kernel, items))
    (hk : (core, k) ∈ items.toList) :
    m.arena.Looks k t ↔ ∃ γ, m.follow γ = some i ∧ g.Lr1Valid γ core.dotted t := by
  rw [hm.looks_iff]
  constructor
  · exact fun ht => hm.exists_lr1Valid ht hi hk
  · exact fun ⟨γ, hfollow, hvalid⟩ => hm.receives_of_lr1Valid hvalid hfollow hi hk

end Automaton.IsComplete

/-- **Lookaheads are exact**: a terminal is in the lookahead of an item exactly when the item is
LR(1)-valid on it for some string that leads to its state. -/
theorem mem_lookahead_iff {limit : Option Nat} {m : Automaton} {i : StateId} {q : State}
    (hg : g.IsDefined) (h : Automaton.build g limit = .ok m) (hq : m.states[i]? = some q) :
    ∃ items, q.items.items m.arena = .ok items ∧ items.map Item.core = q.items.cores ∧
      ∀ item ∈ items, ∀ t,
        t ∈ item.lookahead ↔ ∃ γ, m.follow γ = some i ∧ g.Lr1Valid γ item.core.dotted t := by
  have hm := Automaton.isComplete_of_build hg.wellFormed h
  have hi := Automaton.getElem?_sets_of_getElem? hq
  obtain ⟨items, hitems, hcores, hmem⟩ := (hm.collection.closed hi).isOver.exists_items
  refine ⟨items, hitems, hcores, fun item hitem t => ?_⟩
  obtain ⟨k, hk, hget⟩ := (hmem item).mp hitem
  rw [← Arena.looks_iff hget, hm.looks_iff]
  constructor
  · exact fun ht => hm.exists_lr1Valid ht hi hk
  · exact fun ⟨γ, hfollow, hvalid⟩ => hm.receives_of_lr1Valid hvalid hfollow hi hk

/-- Of the assignments through pointers, `EQUAL` can follow the `L` behind a `STAR`: some string
that leads to its state makes the item LR(1)-valid. -/
theorem mem_lookahead_pointer : ∃ g m q, Grammar.define Examples.pointer = .ok g ∧
    Automaton.build g none = .ok m ∧ m.states[8]? = some q ∧
    ∃ items, q.items.items m.arena = .ok items ∧ ∃ item ∈ items, item.core = ⟨5, 1⟩ ∧
      1 ∈ item.lookahead ∧ ∃ γ, m.follow γ = some 8 ∧ g.Lr1Valid γ ⟨5, 1⟩ 1 := by
  obtain ⟨g, m, hdefine, hbuild, hcheck⟩ := exists_build_of_check Examples.pointer
    (fun _ m => m.states[8]?.any fun q => (q.items.items m.arena).toOption.any fun items =>
      items.any fun item => item.core == ⟨5, 1⟩ && decide (1 ∈ item.lookahead))
    (by decide +kernel)
  obtain ⟨q, hq, hcheck⟩ := (Option.any_eq_true _ _).mp hcheck
  obtain ⟨items, hitems, hexact⟩ := mem_lookahead_iff (.of_define hdefine) hbuild hq
  simp only [hitems, Except.toOption, Option.any_some, List.any_eq_true, Bool.and_eq_true,
    beq_iff_eq, decide_eq_true_eq] at hcheck
  obtain ⟨item, hitem, hcore, ht⟩ := hcheck
  have hvalid := (hexact.2 item hitem 1).mp ht
  rw [hcore] at hvalid
  exact ⟨g, m, q, hdefine, hbuild, hq, items, hitems, item, hitem, hcore, ht, hvalid⟩

end Lalr
