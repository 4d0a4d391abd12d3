import Lalr.ItemSet.Closure
import Lalr.Proofs.ItemSet

/-!
# The closure of an item set

`ClosedUpTo` relates an item set and its arena to a stage of the closure: what
is there comes from the closure rules, and the rules are satisfied except for
the items that still wait. It holds at the start, every expansion keeps it, and
at the end nothing waits: then the set is the LR(0) closure of the kernel, with
exactly the links of the rule, and lookaheads between the first terminals of the
rests and what the rules allow (`closedUpTo_closure`).

What does not depend on the grammar needs no more than that every prediction
keeps it (`Closing.run_induction`).
-/

namespace Lalr

open Grammar

variable {g : Grammar}

/-! ## What stands after a marker -/

theorem getElem?_eq_some_iff_drop {X : Symbol} {right : List Symbol} {dot : Nat} :
    right[dot]? = some X ↔ ∃ β, right.drop dot = X :: β := by
  rw [← List.head?_drop]
  cases right.drop dot <;> simp

theorem Core.next?_eq_some_iff {core : Core} {X : Symbol} :
    core.next? g = .ok (some X) ↔ ∃ β, g.After core.dotted X β := by
  constructor
  · intro h
    obtain ⟨production, hp, h⟩ := bind_eq_ok_iff.mp h
    have hX := pure_eq_ok_iff.mp h
    rw [Production.symbolAt?, ← Array.getElem?_toList, getElem?_eq_some_iff_drop] at hX
    obtain ⟨β, hdrop⟩ := hX
    exact ⟨β, _, _, ⟨production, production_eq_ok_iff.mp hp, rfl, rfl⟩, hdrop⟩
  · rintro ⟨β, n, right, ⟨production, hp, -, rfl⟩, hdrop⟩
    refine bind_eq_ok_iff.mpr ⟨production, production_eq_ok_iff.mpr hp, pure_eq_ok_iff.mpr ?_⟩
    rw [Production.symbolAt?, ← Array.getElem?_toList, getElem?_eq_some_iff_drop]
    exact ⟨β, hdrop⟩

theorem Core.next?_of_expands {core : Core} {n : NonterminalId} {right : List Symbol}
    (hp : g.Expands core.production n right) : core.next? g = .ok right[core.dot.toNat]? := by
  obtain ⟨production, hproduction, -, rfl⟩ := hp
  refine bind_eq_ok_iff.mpr ⟨production, production_eq_ok_iff.mpr hproduction, ?_⟩
  rw [Production.symbolAt?, Array.getElem?_toList]
  rfl

theorem Item.nextNonterminal?_eq_some_iff {item : Item} {n : NonterminalId} :
    item.nextNonterminal? g = .ok (some n) ↔ ∃ β, g.After item.core.dotted (.nonterminal n) β := by
  rw [← Core.next?_eq_some_iff]
  constructor
  · intro h
    obtain ⟨symbol?, hnext, hsymbol⟩ := bind_eq_ok_iff.mp h
    have hsymbol := pure_eq_ok_iff.mp hsymbol
    split at hsymbol
    · cases hsymbol
      exact hnext
    · cases hsymbol
  · exact fun h => bind_eq_ok_iff.mpr ⟨_, h, rfl⟩

/-- The table says what the symbols behind the next one derive. -/
theorem Core.rest_spec (wf : g.WellFormed) {core : Core} {X : Symbol} {β : List Symbol}
    {suffix : Suffix} (hX : g.After core.dotted X β) (h : core.rest g = .ok suffix) :
    suffix.IsExact g β := by
  obtain ⟨production, hp, hsuffix⟩ := bind_eq_ok_iff.mp h
  rw [production_eq_ok_iff] at hp
  obtain ⟨n, right, ⟨production', hp', -, rfl⟩, hdrop⟩ := hX
  cases hp.symm.trans hp'
  have hβ : production.right.toList.drop (core.dot.toNat + 1) = β := by
    rw [← List.tail_drop]
    exact congrArg List.tail hdrop
  obtain ⟨known, hknown, hexact⟩ := wf.exists_suffix hp (core.dot.toNat + 1)
  cases hknown.symm.trans hsuffix
  exact hβ ▸ hexact

namespace Closing

variable {s : ItemSet} {a : Arena} {core : Core} {id source : ItemId}

/-! ## Single steps -/

/-- What it means to look at an item: nothing happens unless a nonterminal stands after the marker;
else the productions that it lists are predicted, with the terminals that can follow it. -/
theorem expand_cases (wf : g.WellFormed) {state next : Closing} {item : Item}
    (hitem : state.arena[id]? = some item) (h : state.expand g id = .ok next) :
    (∀ p β, ¬g.Predicts item.core.dotted p β) ∧ next = state ∨
      ∃ (β : List Symbol) (lookahead : TerminalSet) (isVisible : Bool) (ps : List ProductionId),
        (∃ (n : NonterminalId) (nonterminal : Nonterminal),
          g.nonterminals[n]? = some nonterminal ∧ nonterminal.productions = ps) ∧
        (∀ p β', g.Predicts item.core.dotted p β' ↔ p ∈ ps ∧ β' = β) ∧
        (∀ t, t ∈ lookahead ↔ g.First β t ∨ g.Nullable β ∧ t ∈ item.lookahead) ∧
        (isVisible = true ↔ g.Nullable β) ∧
        ps.foldlM (predict id isVisible lookahead) state = .ok next := by
  obtain ⟨item', hget, h⟩ := bind_eq_ok_iff.mp h
  cases hitem.symm.trans (Arena.get_eq_ok_iff.mp hget)
  obtain ⟨after, hafter, h⟩ := bind_eq_ok_iff.mp h
  cases after with
  | none =>
    cases h
    refine .inl ⟨?_, rfl⟩
    rintro p β ⟨n, right, hn, hp⟩
    cases hafter.symm.trans (Item.nextNonterminal?_eq_some_iff.mpr ⟨β, hn⟩)
  | some n =>
    obtain ⟨lookahead, hlookahead, h⟩ := bind_eq_ok_iff.mp h
    obtain ⟨isVisible, hvisible, h⟩ := bind_eq_ok_iff.mp h
    obtain ⟨nonterminal, hnonterminal, h⟩ := bind_eq_ok_iff.mp h
    obtain ⟨suffix, hrest, hlookahead⟩ := bind_eq_ok_iff.mp hlookahead
    obtain ⟨suffix', hrest', hvisible⟩ := bind_eq_ok_iff.mp hvisible
    cases hrest.symm.trans hrest'
    obtain ⟨β, hn⟩ := Item.nextNonterminal?_eq_some_iff.mp hafter
    obtain ⟨hnullable, hfirst⟩ := Core.rest_spec wf hn hrest
    have hknown := nonterminal_eq_ok_iff.mp hnonterminal
    refine .inr ⟨β, lookahead, isVisible, nonterminal.productions, ⟨n, nonterminal, hknown, rfl⟩,
      fun p β' => ?_, fun t => ?_, ?_, h⟩
    · rw [wf.mem_productions_iff hknown]
      constructor
      · rintro ⟨m, right, hm, hp⟩
        obtain ⟨hmn, rfl⟩ := hm.unique hn
        cases hmn
        exact ⟨⟨right, hp⟩, rfl⟩
      · rintro ⟨⟨right, hp⟩, rfl⟩
        exact ⟨n, right, hn, hp⟩
    · rw [← pure_eq_ok_iff.mp hlookahead, ← hnullable, ← hfirst]
      split
      · next hnull => simp [hnull]
      · next hnull => simp [hnull]
    · rw [← pure_eq_ok_iff.mp hvisible, hnullable]

/-- What it means to predict a production: its item is there, has gained the lookahead and is linked
if that was wanted; nothing else is new, and what is new has to be looked at. -/
theorem predict_spec {isVisible : Bool} {lookahead : TerminalSet} {state next : Closing}
    {p : ProductionId} (hs : state.set.IsOver state.arena)
    (h : state.predict source isVisible lookahead p = .ok next) : ∃ added news,
      state.arena.Growth next.arena news (fun k t => k = added ∧ t ∈ lookahead)
        (fun l k => isVisible = true ∧ l = source ∧ k = added) ∧
      next.set.toList = state.set.toList ++ news.zipIdx state.arena.size ∧
      next.set.IsOver next.arena ∧ (⟨p, 0⟩, added) ∈ next.set.toList ∧
      state.work ⊆ next.work ∧ next.work ⊆ added :: state.work ∧
      ∀ core id, (core, id) ∈ next.set.toList →
        (core, id) ∈ state.set.toList ∨ core = ⟨p, 0⟩ ∧ id ∈ next.work := by
  obtain ⟨placed, linked, hadd, hlink, rfl⟩ := exists_of_predict h
  obtain ⟨news, hgrowth, hlist, hover, hmem, hnews⟩ := ItemSet.addNew_spec hs hadd
  have hlinked := Arena.growth_linkIf hlink
  refine ⟨placed.id, news, (hgrowth.trans hlinked).congr (List.append_nil _) (by simp) (by simp),
    hlist, hover.growth hlinked, hmem, ?_⟩
  rcases hnews with ⟨hold, rfl⟩ | ⟨hnew, rfl, hid⟩
  · rw [List.zipIdx_nil, List.append_nil] at hlist
    simp only [hold, hlist, Bool.false_eq_true, if_false]
    exact ⟨fun k hk => hk, List.subset_cons_self _ _, fun core id hc => .inl hc⟩
  · simp only [hnew, hlist, ← hid, if_true]
    refine ⟨List.subset_cons_self _ _, fun k hk => hk, fun core id hc => ?_⟩
    rcases List.mem_append.mp hc with hc | hc
    · exact .inl hc
    · cases List.mem_singleton.mp hc
      exact .inr ⟨rfl, List.mem_cons_self⟩

/-! ## What every prediction keeps -/

/-- What every prediction keeps is kept by a closure, whatever the grammar says. -/
theorem run_induction {P : ItemSet → Arena → Prop} {state : Closing} {s' : ItemSet} {a' : Arena}
    (hpredict : ∀ source isVisible lookahead p before after, P before.set before.arena →
      predict source isVisible lookahead before p = .ok after → P after.set after.arena)
    (hstart : P state.set state.arena) (h : state.run g = .ok (s', a')) : P s' a' := by
  fun_induction Closing.run g state with
  | case1 set arena =>
    cases h
    exact hstart
  | case2 => cases h
  | case3 set arena id work next hexpand ih =>
    refine ih ?_ h
    obtain ⟨item, -, hexpand⟩ := bind_eq_ok_iff.mp hexpand
    obtain ⟨after, -, hexpand⟩ := bind_eq_ok_iff.mp hexpand
    cases after with
    | none =>
      cases hexpand
      exact hstart
    | some n =>
      obtain ⟨lookahead, -, hexpand⟩ := bind_eq_ok_iff.mp hexpand
      obtain ⟨isVisible, -, hexpand⟩ := bind_eq_ok_iff.mp hexpand
      obtain ⟨nonterminal, -, hexpand⟩ := bind_eq_ok_iff.mp hexpand
      exact foldlM_induction (P := fun later : Closing => P later.set later.arena) hexpand hstart
        fun p _ before after hbefore hstep => hpredict _ _ _ p before after hbefore hstep

end Closing

/-! ## Stages of the closure -/

/-- The set has an item for production `p`, and what an item with number `id` passes on to it when
`β` is its rest has been passed on. -/
def Predicted (g : Grammar) (set : ItemSet) (arena : Arena) (id : ItemId) (p : ProductionId)
    (β : List Symbol) : Prop :=
  ∃ k, (⟨p, 0⟩, k) ∈ set.toList ∧ (∀ t, g.First β t → arena.Looks k t) ∧
    (g.Nullable β → arena.Links id k)

theorem Predicted.mono {set set' : ItemSet} {arena arena' : Arena} {id : ItemId} {p : ProductionId}
    {β : List Symbol} (h : Predicted g set arena id p β) (hset : set.toList ⊆ set'.toList)
    (hlooks : ∀ id t, arena.Looks id t → arena'.Looks id t)
    (hlinks : ∀ source target, arena.Links source target → arena'.Links source target) :
    Predicted g set' arena' id p β := by
  obtain ⟨k, hmem, hfirst, hnull⟩ := h
  exact ⟨k, hset hmem, fun t ht => hlooks k t (hfirst t ht), fun hβ => hlinks id k (hnull hβ)⟩

/-- The set and the arena come from `s` and `a` by the closure rules, and the rules are satisfied
for all items but those that wait. New members come last, and so do their items. Only members gain
terminals or are linked, and only as the rules say. -/
structure ClosedUpTo (g : Grammar) (s : ItemSet) (a : Arena) (set : ItemSet) (arena : Arena)
    (waiting : ItemId → Prop) : Prop where
  growth : ∃ news gained linked, a.Growth arena news gained linked ∧
    set.toList = s.toList ++ news.zipIdx a.size
  isOver : set.IsOver arena
  closure : ∀ {core id}, (core, id) ∈ set.toList → g.Closure s.Has core.dotted
  looks_sound : ∀ {id t}, arena.Looks id t → a.Looks id t ∨
    ∃ core, (core, id) ∈ set.toList ∧ g.ClosureLooks s.Has (s.Looks a) core.dotted t
  links_sound : ∀ {source target}, arena.Links source target → a.Links source target ∨
    ∃ core p β, (core, source) ∈ set.toList ∧ g.Predicts core.dotted p β ∧ g.Nullable β ∧
      (⟨p, 0⟩, target) ∈ set.toList
  waiting_mem : ∀ {id}, waiting id → ∃ core, (core, id) ∈ set.toList
  predicted : ∀ {core id p β}, (core, id) ∈ set.toList → ¬waiting id →
    g.Predicts core.dotted p β → Predicted g set arena id p β

namespace ClosedUpTo

variable {s set : ItemSet} {a arena : Arena} {waiting : ItemId → Prop}
variable {core : Core} {id source : ItemId} {t : TerminalId}

/-- At the beginning all members wait. -/
theorem refl (hs : s.IsOver a) : ClosedUpTo g s a ⟨s.members, none⟩ a (· ∈ s.ids.reverse) where
  growth := ⟨[], _, _, .refl a, by simp [ItemSet.toList]⟩
  isOver := ⟨hs.nodup, hs.stored⟩
  closure hmem := .base (ItemSet.has_of_mem hmem)
  looks_sound := .inl
  links_sound := .inl
  waiting_mem hid := ItemSet.mem_ids_iff.mp (List.mem_reverse.mp hid)
  predicted hmem hnot :=
    absurd (List.mem_reverse.mpr (ItemSet.mem_ids_iff.mpr ⟨_, hmem⟩)) hnot

theorem congr {waiting' : ItemId → Prop} (h : ClosedUpTo g s a set arena waiting)
    (hiff : ∀ id, waiting id ↔ waiting' id) : ClosedUpTo g s a set arena waiting' := by
  cases funext fun id => propext (hiff id)
  exact h

/-- An item that was there before the closure belongs to the kernel if it is a member. -/
theorem mem_kernel (h : ClosedUpTo g s a set arena waiting) (hmem : (core, id) ∈ set.toList)
    (hlt : id < a.size) : (core, id) ∈ s.toList := by
  obtain ⟨news, -, -, -, hlist⟩ := h.growth
  rw [hlist, List.mem_append] at hmem
  rcases hmem with hmem | hmem
  · exact hmem
  · exact absurd (List.mem_zipIdx hmem).1 (Nat.not_le_of_lt hlt)

/-- A member looks at nothing but what the rules give it. -/
theorem closureLooks (h : ClosedUpTo g s a set arena waiting) (hmem : (core, id) ∈ set.toList)
    (ht : arena.Looks id t) : g.ClosureLooks s.Has (s.Looks a) core.dotted t := by
  rcases h.looks_sound ht with ht | ⟨core', hmem', hlooks⟩
  · exact .given ⟨core, id, h.mem_kernel hmem ht.lt_size, rfl, ht⟩
  · exact h.isOver.core_unique h.isOver hmem hmem' ▸ hlooks

/-- Predicting a production of an item that waits keeps all that was reached, and satisfies the
rule for this production. -/
theorem predict {state next : Closing} {β : List Symbol} {p : ProductionId}
    {lookahead : TerminalSet} {isVisible : Bool}
    (h : ClosedUpTo g s a state.set state.arena fun k => k = source ∨ k ∈ state.work)
    (hmem : (core, source) ∈ state.set.toList) (hp : g.Predicts core.dotted p β)
    (hsound : ∀ t, t ∈ lookahead → g.ClosureLooks s.Has (s.Looks a) ⟨p, 0⟩ t)
    (hfirst : ∀ t, g.First β t → t ∈ lookahead) (hvisible : isVisible = true ↔ g.Nullable β)
    (hstep : state.predict source isVisible lookahead p = .ok next) :
    ClosedUpTo g s a next.set next.arena (fun k => k = source ∨ k ∈ next.work) ∧
      Predicted g next.set next.arena source p β ∧ state.set.toList ⊆ next.set.toList ∧
      ∀ q γ, Predicted g state.set state.arena source q γ →
        Predicted g next.set next.arena source q γ := by
  obtain ⟨added, news, hgrowth, hlist, hover, hadded, hwork, hnext, hnew⟩ :=
    Closing.predict_spec h.isOver hstep
  obtain ⟨before, gained, linked, hbefore, hmembers⟩ := h.growth
  have hsub : state.set.toList ⊆ next.set.toList := hlist ▸ List.subset_append_left _ _
  have hpredicted : Predicted g next.set next.arena source p β :=
    ⟨added, hadded, fun t ht => (hgrowth.looks_iff added t).mpr (.inr ⟨rfl, hfirst t ht⟩),
      fun hβ => (hgrowth.links_iff source added).mpr (.inr ⟨hvisible.mpr hβ, rfl, rfl⟩)⟩
  have hmono {id : ItemId} {q : ProductionId} {γ : List Symbol}
      (hq : Predicted g state.set state.arena id q γ) : Predicted g next.set next.arena id q γ :=
    hq.mono hsub (fun _ _ => hgrowth.looks) fun _ _ => hgrowth.links
  refine ⟨?_, hpredicted, hsub, fun q γ => hmono⟩
  constructor
  case growth =>
    refine ⟨before ++ news, _, _, hbefore.trans hgrowth, ?_⟩
    rw [hlist, hmembers, List.zipIdx_append, List.append_assoc, hbefore.size_eq]
  case isOver => exact hover
  case closure =>
    intro c id hc
    rcases hnew c id hc with hc | ⟨rfl, -⟩
    · exact h.closure hc
    · exact (h.closure hmem).predict hp
  case looks_sound =>
    intro id t ht
    rcases (hgrowth.looks_iff id t).mp ht with ht | ⟨rfl, ht⟩
    · exact (h.looks_sound ht).imp_right fun ⟨c, hc, hlooks⟩ => ⟨c, hsub hc, hlooks⟩
    · exact .inr ⟨_, hadded, hsound t ht⟩
  case links_sound =>
    intro l k hl
    rcases (hgrowth.links_iff l k).mp hl with hl | ⟨hvis, rfl, rfl⟩
    · exact (h.links_sound hl).imp_right fun ⟨c, q, γ, hc, hq, hγ, hk⟩ =>
        ⟨c, q, γ, hsub hc, hq, hγ, hsub hk⟩
    · exact .inr ⟨core, p, β, hsub hmem, hp, hvisible.mp hvis, hadded⟩
  case waiting_mem =>
    rintro id (rfl | hid)
    · exact ⟨core, hsub hmem⟩
    · rcases List.mem_cons.mp (hnext hid) with rfl | hid
      · exact ⟨_, hadded⟩
      · obtain ⟨c, hc⟩ := h.waiting_mem (.inr hid)
        exact ⟨c, hsub hc⟩
  case predicted =>
    -- a new member waits
    intro c id q γ hc hnot hq
    rcases hnew c id hc with hc | ⟨-, hid⟩
    · exact hmono (h.predicted hc (fun hw => hnot (hw.imp_right fun hk => hwork hk)) hq)
    · exact absurd (.inr hid) hnot

/-- Looking at an item takes it off the waiting ones. -/
theorem expand (wf : g.WellFormed) {state next : Closing}
    (h : ClosedUpTo g s a state.set state.arena fun k => k = id ∨ k ∈ state.work)
    (hstep : state.expand g id = .ok next) :
    ClosedUpTo g s a next.set next.arena (· ∈ next.work) := by
  obtain ⟨core, hmem⟩ := h.waiting_mem (.inl rfl)
  obtain ⟨item, hitem, hcore⟩ := h.isOver.exists_item hmem
  rcases Closing.expand_cases wf hitem hstep with
    ⟨hnone, rfl⟩ | ⟨β, lookahead, isVisible, ps, -, hps, hlookahead, hvisible, hfold⟩
  · rw [hcore] at hnone
    refine { h with waiting_mem := fun hid => h.waiting_mem (.inr hid), predicted := ?_ }
    intro c k p β hc hnot hp
    by_cases hk : k = id
    · subst hk
      exact absurd (h.isOver.core_unique h.isOver hmem hc ▸ hp) (hnone p β)
    · exact h.predicted hc (by simp [hk, hnot]) hp
  · rw [hcore] at hps
    have hsound {p : ProductionId} (hp : p ∈ ps) (t : TerminalId) (ht : t ∈ lookahead) :
        g.ClosureLooks s.Has (s.Looks a) ⟨p, 0⟩ t := by
      have hpredicts := (hps p β).mpr ⟨hp, rfl⟩
      rcases (hlookahead t).mp ht with ht | ⟨hβ, ht⟩
      · exact .first (h.closure hmem) hpredicts ht
      · exact .inherit (h.closureLooks hmem ((Arena.looks_iff hitem).mpr ht)) hpredicts hβ
    let reached (done : List ProductionId) (state : Closing) : Prop :=
      ClosedUpTo g s a state.set state.arena (fun k => k = id ∨ k ∈ state.work) ∧
        (core, id) ∈ state.set.toList ∧ ∀ p ∈ done, Predicted g state.set state.arena id p β
    have hreached : reached ps next := by
      refine foldlM_prefix_induction (P := reached) hfold ⟨h, hmem, by simp⟩ ?_
      rintro done p before after hpre ⟨hclosed, hin, hdone⟩ hpredict
      have hp : p ∈ ps := hpre.subset (by simp)
      obtain ⟨hclosed, hthis, hsub, hkept⟩ := hclosed.predict hin ((hps p β).mpr ⟨hp, rfl⟩)
        (hsound hp) (fun t ht => (hlookahead t).mpr (.inl ht)) hvisible hpredict
      refine ⟨hclosed, hsub hin, fun q hq => ?_⟩
      rcases List.mem_append.mp hq with hq | hq
      · exact hkept q β (hdone q hq)
      · exact List.mem_singleton.mp hq ▸ hthis
    obtain ⟨hclosed, hin, hall⟩ := hreached
    refine { hclosed with
      waiting_mem := fun hid => hclosed.waiting_mem (.inr hid), predicted := ?_ }
    intro c k p γ hc hnot hp
    by_cases hk : k = id
    · subst hk
      rw [hclosed.isOver.core_unique hclosed.isOver hc hin] at hp
      obtain ⟨hp, rfl⟩ := (hps p γ).mp hp
      exact hall p hp
    · exact hclosed.predicted hc (by simp [hk, hnot]) hp

theorem run (wf : g.WellFormed) {state : Closing} {s' : ItemSet} {a' : Arena}
    (h : ClosedUpTo g s a state.set state.arena (· ∈ state.work))
    (hrun : state.run g = .ok (s', a')) : ClosedUpTo g s a s' a' fun _ => False := by
  fun_induction Closing.run g state with
  | case1 set arena =>
    cases hrun
    exact h.congr (by simp)
  | case2 => cases hrun
  | case3 set arena id work next hexpand ih =>
    have hopen : ClosedUpTo g s a set arena fun k => k = id ∨ k ∈ work :=
      h.congr fun k => List.mem_cons
    exact ih (expand wf hopen hexpand) hrun

/-- The members of the kernel are members of the closure. -/
theorem kernel_subset (h : ClosedUpTo g s a set arena waiting) : s.toList ⊆ set.toList := by
  obtain ⟨news, -, -, -, hlist⟩ := h.growth
  exact hlist ▸ List.subset_append_left _ _

/-- When nothing waits, the closure has all its items. -/
theorem exists_mem_of_closure {x : Dotted} (h : ClosedUpTo g s a set arena fun _ => False)
    (hx : g.Closure s.Has x) : ∃ core id, (core, id) ∈ set.toList ∧ core.dotted = x := by
  induction hx with
  | base hx =>
    obtain ⟨core, id, hmem, rfl⟩ := hx.exists_mem
    exact ⟨core, id, h.kernel_subset hmem, rfl⟩
  | @predict x p β _ hp ih =>
    obtain ⟨core, id, hmem, rfl⟩ := ih
    obtain ⟨k, hk, -⟩ := h.predicted hmem (fun hw => hw) hp
    exact ⟨⟨p, 0⟩, k, hk, rfl⟩

/-- So it has exactly these. -/
theorem has_iff {x : Dotted} (h : ClosedUpTo g s a set arena fun _ => False) :
    set.Has x ↔ g.Closure s.Has x := by
  constructor
  · intro hx
    obtain ⟨core, id, hmem, rfl⟩ := hx.exists_mem
    exact h.closure hmem
  · intro hx
    obtain ⟨core, id, hmem, rfl⟩ := h.exists_mem_of_closure hx
    exact ItemSet.has_of_mem hmem

end ClosedUpTo

/-- **The closure satisfies its rules for every item**, and has nothing that they do not ask for. -/
theorem closedUpTo_closure (wf : g.WellFormed) {s s' : ItemSet} {a a' : Arena} (hs : s.IsOver a)
    (h : s.closure g a = .ok (s', a')) : ClosedUpTo g s a s' a' fun _ => False :=
  ClosedUpTo.run wf (ClosedUpTo.refl hs) h

end Lalr
