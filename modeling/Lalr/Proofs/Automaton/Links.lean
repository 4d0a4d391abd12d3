import Lalr.Proofs.Automaton.Canonical

/-!
# Links are exact

The targets of an item are what it predicts in its own state, if nothing need
follow the nonterminal after its marker, and what it becomes in the next state
(`hasExactTargets_of_build`). Each of these items is there, in one arena with
all others, and no target is recorded twice.
-/

namespace Lalr

open Grammar

variable {g : Grammar}

namespace Automaton

variable {m : Automaton} {i : StateId} {q : State} {core : Core} {h k : ItemId}

/-- The targets are those that an item of state `i` with the given core should have, each once: the
predictions in the same state that nothing need follow, and the advanced item in the kernel of the
next state. None of these items is missing, and all targets are in the arena. -/
structure HasExactTargets (g : Grammar) (m : Automaton) (i : StateId) (q : State) (core : Core)
    (targets : Array ItemId) : Prop where
  nodup : targets.toList.Nodup
  mem_iff : ∀ k, k ∈ targets ↔
    (∃ p β, g.Predicts core.dotted p β ∧ g.Nullable β ∧ q.items.find? ⟨p, 0⟩ = some k) ∨
      ∃ X β j r core', g.After core.dotted X β ∧ m.step? i X = some j ∧ m.states[j]? = some r ∧
        core'.dotted = core.dotted.advance ∧ r.kernel.find? core' = some k
  lt_size : ∀ k ∈ targets, k < m.arena.size
  exists_predicted : ∀ p β, g.Predicts core.dotted p β → ∃ k, q.items.find? ⟨p, 0⟩ = some k
  exists_advanced : ∀ X β, g.After core.dotted X β → ∃ j r core' k, m.step? i X = some j ∧
    m.states[j]? = some r ∧ core'.dotted = core.dotted.advance ∧ r.kernel.find? core' = some k

namespace IsComplete

/-- An item of a state is where the state has it. -/
theorem find?_items_eq_some_iff (hm : m.IsComplete g) (hq : m.states[i]? = some q) :
    q.items.find? core = some k ↔ (core, k) ∈ q.items.toList :=
  ItemSet.find?_eq_some_iff (hm.collection.closed
    (getElem?_sets_of_getElem? hq)).isOver.nodup

theorem find?_kernel_eq_some_iff (hm : m.IsComplete g) (hq : m.states[i]? = some q) :
    q.kernel.find? core = some k ↔ (core, k) ∈ q.kernel.toList :=
  ItemSet.find?_eq_some_iff (hm.collection.closed
    (getElem?_sets_of_getElem? hq)).kernel_isOver.nodup

/-- The marker of an item moves on to one item of the next state. -/
theorem exists_find?_advanced {X : Symbol} {β : List Symbol} (hm : m.IsComplete g)
    (hq : m.states[i]? = some q) (hmem : (core, h) ∈ q.items.toList)
    (hX : g.After core.dotted X β) : ∃ j r k, m.step? i X = some j ∧ m.states[j]? = some r ∧
      core.advance.dotted = core.dotted.advance ∧ r.kernel.find? core.advance = some k := by
  have hi := getElem?_sets_of_getElem? hq
  obtain ⟨j, hgoes⟩ := (hm.goes_iff hi).mpr ⟨_, β, ItemSet.has_of_mem hmem, hX⟩
  obtain ⟨K, I, K', I', -, hj, -⟩ := hm.collection.advanced hgoes
  obtain ⟨hadvance, k, hk⟩ := hm.exists_advanced hgoes hi hj hmem hX
  obtain ⟨r, hr, rfl, rfl⟩ := getElem?_sets_eq_some_iff.mp hj
  exact ⟨j, r, k, hm.step?_eq_some_iff.mpr hgoes, hr, hadvance,
    (hm.find?_kernel_eq_some_iff hr).mpr hk⟩

/-- What an item passes its lookahead on to, seen from its own state. -/
theorem passes_iff (hm : m.IsComplete g) (hq : m.states[i]? = some q)
    (hmem : (core, h) ∈ q.items.toList) : m.Passes g h k ↔
      (∃ p β, g.Predicts core.dotted p β ∧ g.Nullable β ∧ q.items.find? ⟨p, 0⟩ = some k) ∨
        ∃ X β j r core', g.After core.dotted X β ∧ m.step? i X = some j ∧
          m.states[j]? = some r ∧ core'.dotted = core.dotted.advance ∧
          r.kernel.find? core' = some k := by
  have hi := getElem?_sets_of_getElem? hq
  constructor
  · intro hpass
    cases hpass with
    | predict hi' hh hp hβ hk =>
      obtain ⟨rfl, rfl⟩ := hm.item_unique hi hi' hmem hh
      cases hi.symm.trans hi'
      exact .inl ⟨_, _, hp, hβ, (hm.find?_items_eq_some_iff hq).mpr hk⟩
    | shift hi' hgoes hj hh hX hk =>
      obtain ⟨rfl, rfl⟩ := hm.item_unique hi hi' hmem hh
      have hadvance := (hm.exists_advanced hgoes hi' hj hh hX).1
      obtain ⟨r, hr, rfl, rfl⟩ := getElem?_sets_eq_some_iff.mp hj
      exact .inr ⟨_, _, _, r, _, hX, hm.step?_eq_some_iff.mpr hgoes, hr, hadvance,
        (hm.find?_kernel_eq_some_iff hr).mpr hk⟩
  · rintro (⟨p, β, hp, hβ, hk⟩ | ⟨X, β, j, r, core', hX, hstep, hr, hcore, hk⟩)
    · exact .predict hi hmem hp hβ ((hm.find?_items_eq_some_iff hq).mp hk)
    · have hgoes := hm.step?_eq_some_iff.mp hstep
      have hj := getElem?_sets_of_getElem? hr
      have hadvance := (hm.exists_advanced hgoes hi hj hmem hX).1
      obtain rfl : core' = core.advance := Core.dotted_inj.mp (hcore.trans hadvance.symm)
      exact .shift hi hgoes hj hmem hX ((hm.find?_kernel_eq_some_iff hr).mp hk)

end IsComplete

end Automaton

/-- **Links are exact**: the targets of every item of every state are those that it should have. -/
theorem hasExactTargets_of_build {limit : Option Nat} {m : Automaton} {i : StateId} {q : State}
    {core : Core} {h : ItemId} (hg : g.IsDefined) (hbuild : Automaton.build g limit = .ok m)
    (hq : m.states[i]? = some q) (hfind : q.items.find? core = some h) :
    ∃ item, m.arena[h]? = some item ∧ item.core = core ∧
      m.HasExactTargets g i q core item.targets := by
  have hm := Automaton.isComplete_of_build hg.wellFormed hbuild
  have hmem := (hm.find?_items_eq_some_iff hq).mp hfind
  have hi := Automaton.getElem?_sets_of_getElem? hq
  obtain ⟨item, hitem, hcore⟩ :=
    Arena.getElem?_cores_eq_some_iff.mp ((hm.collection.closed hi).isOver.stored hmem)
  have htargets (k : ItemId) : k ∈ item.targets ↔ m.Passes g h k := by
    rw [← Arena.links_iff hitem, hm.links_iff]
  refine ⟨item, hitem, hcore, ?_⟩
  constructor
  case nodup => exact hm.simple h item hitem
  case mem_iff =>
    intro k
    rw [htargets, hm.passes_iff hq hmem]
  case lt_size =>
    intro k hk
    exact ((htargets k).mp hk).lt_size hm.collection
  case exists_predicted =>
    intro p β hp
    obtain ⟨k, hk⟩ := hm.exists_predicted hi hmem hp
    exact ⟨k, (hm.find?_items_eq_some_iff hq).mpr hk⟩
  case exists_advanced =>
    intro X β hX
    obtain ⟨j, r, k, hstep, hr, hadvance, hk⟩ := hm.exists_find?_advanced hq hmem hX
    exact ⟨j, r, _, k, hstep, hr, hadvance, hk⟩

/-- Of the assignments through pointers, the item of `S := R` at the beginning passes its lookahead
on to `R := L` in the start state, and to itself with the marker at the end. -/
theorem hasExactTargets_pointer : ∃ g m q h item, Grammar.define Examples.pointer = .ok g ∧
    Automaton.build g none = .ok m ∧ m.states[startState]? = some q ∧
    q.items.find? ⟨2, 0⟩ = some h ∧ m.arena[h]? = some item ∧ item.targets.size = 2 ∧
    m.HasExactTargets g startState q ⟨2, 0⟩ item.targets := by
  obtain ⟨g, m, hdefine, hbuild, hcheck⟩ := exists_build_of_check Examples.pointer
    (fun _ m => m.states[startState]?.any fun q => (q.items.find? ⟨2, 0⟩).any fun h =>
      m.arena[h]?.any fun item => item.targets.size == 2)
    (by decide +kernel)
  obtain ⟨q, hq, hcheck⟩ := (Option.any_eq_true _ _).mp hcheck
  obtain ⟨h, hfind, hcheck⟩ := (Option.any_eq_true _ _).mp hcheck
  obtain ⟨item, hitem, hsize⟩ := (Option.any_eq_true _ _).mp hcheck
  obtain ⟨item', hitem', -, hexact⟩ :=
    hasExactTargets_of_build (.of_define hdefine) hbuild hq hfind
  cases hitem.symm.trans hitem'
  exact ⟨g, m, q, h, item, hdefine, hbuild, hq, hfind, hitem, eq_of_beq hsize, hexact⟩

end Lalr
