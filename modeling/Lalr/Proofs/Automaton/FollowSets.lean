import Lalr.Proofs.Automaton.Reductions
import Lalr.Proofs.Follow

/-!
# Merged lookaheads are follow sets

A state tells apart in which context a production is reduced. Over all states
together that distinction is gone: an item looks at whatever can follow the left
side of its production, in some state or other (`mergesToFollow_of_build`).

Both halves go through validity. Any string leads to a state as soon as some item
is valid for it, so what holds in some state is what is valid for some string
(`IsComplete.exists_has_iff`, `IsComplete.mem_lookaheads_iff`); and what is valid
for some string is a matter of the grammar alone.
-/

namespace Lalr

open Grammar

variable {g : Grammar} {p : ProductionId} {n : NonterminalId} {right : List Symbol} {x : Dotted}
variable {t : TerminalId}

namespace Automaton

variable {m : Automaton}

/-- The terminals at which an item looks, in all states together. -/
def lookaheads (m : Automaton) (x : Dotted) : Set TerminalId :=
  {t | ∃ (i : StateId) (q : State) (k : ItemId) (item : Item), m.states[i]? = some q ∧
    (item.core, k) ∈ q.items.toList ∧ m.arena[k]? = some item ∧ item.core.dotted = x ∧
    t ∈ item.lookahead}

/-- The terminals on which a production is reduced, in all states together. -/
def reducedOn (g : Grammar) (m : Automaton) (p : ProductionId) : Set TerminalId :=
  {t | ∃ (i : StateId) (q : State) (reductions : List (ProductionId × TerminalSet))
    (lookahead : TerminalSet), m.states[i]? = some q ∧ q.reductions g m.arena = .ok reductions ∧
    (p, lookahead) ∈ reductions ∧ t ∈ lookahead}

namespace IsComplete

/-- An item is in some state exactly when it is valid for some string. -/
theorem exists_has_iff (hm : m.IsComplete g) :
    (∃ (i : StateId) (q : State), m.states[i]? = some q ∧ q.items.Has x) ↔
      ∃ γ, g.Lr0Valid γ x := by
  constructor
  · rintro ⟨i, q, hq, hx⟩
    obtain ⟨γ, hγ⟩ := hm.collection.exists_validItems (getElem?_sets_of_getElem? hq)
    exact ⟨γ, (hγ ▸ hx : x ∈ g.validItems γ)⟩
  · rintro ⟨γ, hx⟩
    obtain ⟨i, hfollow⟩ := hm.exists_follow_iff.mpr (.inr ⟨x, hx⟩)
    obtain ⟨kernel, items, hi, hhas⟩ := hm.has_iff_of_follow hfollow
    obtain ⟨q, hq, rfl, rfl⟩ := getElem?_sets_eq_some_iff.mp hi
    exact ⟨i, q, hq, (hhas x).mpr hx⟩

/-- It looks at a terminal in some state exactly when it is valid on it for some string. -/
theorem mem_lookaheads_iff (hm : m.IsComplete g) :
    t ∈ m.lookaheads x ↔ ∃ γ, g.Lr1Valid γ x t := by
  constructor
  · rintro ⟨i, q, k, item, hq, hk, hget, rfl, ht⟩
    have hreceives : m.Receives g k t := hm.looks_iff.mp ((Arena.looks_iff hget).mpr ht)
    obtain ⟨γ, -, hvalid⟩ := hm.exists_lr1Valid hreceives (getElem?_sets_of_getElem? hq) hk
    exact ⟨γ, hvalid⟩
  · rintro ⟨γ, hvalid⟩
    obtain ⟨i, hfollow⟩ := hm.exists_follow_iff.mpr (.inr ⟨x, hvalid.lr0Valid⟩)
    obtain ⟨kernel, items, hi, -⟩ := hm.has_iff_of_follow hfollow
    obtain ⟨core, k, hk, hdotted, ht⟩ := hm.exists_receives hvalid hfollow hi
    obtain ⟨item, hget, rfl⟩ := (hm.collection.closed hi).isOver.exists_item hk
    obtain ⟨q, hq, rfl, rfl⟩ := getElem?_sets_eq_some_iff.mp hi
    exact ⟨i, q, k, item, hq, hk, hget, hdotted,
      (Arena.looks_iff hget).mp (hm.looks_iff.mpr ht)⟩

/-- A production is reduced on what its item with the marker at the end looks at. -/
theorem reducedOn_eq (wf : g.WellFormed) (hm : m.IsComplete g) (hp : g.Expands p n right) :
    m.reducedOn g p = m.lookaheads ⟨p, right.length⟩ := by
  refine Set.ext fun t => ⟨?_, ?_⟩
  · rintro ⟨i, q, reductions, lookahead, hq, hreductions, hmem, ht⟩
    obtain ⟨reductions', hreductions', hspec⟩ := hm.reductions_spec wf hq
    cases hreductions.symm.trans hreductions'
    obtain ⟨n', right', k, item, hp', hk, hget, hdotted, rfl⟩ := (hspec p lookahead).mp hmem
    obtain ⟨-, rfl⟩ := hp.unique hp'
    exact ⟨i, q, k, item, hq, hk, hget, hdotted, ht⟩
  · rintro ⟨i, q, k, item, hq, hk, hget, hdotted, ht⟩
    obtain ⟨reductions, hreductions, hspec⟩ := hm.reductions_spec wf hq
    have hmem := (hspec p item.lookahead).mpr ⟨n, right, k, item, hp, hk, hget, hdotted, rfl⟩
    exact ⟨i, q, reductions, item.lookahead, hq, hreductions, hmem, ht⟩

end IsComplete

/-- The lookaheads of a production, merged over all states, are what can follow its left side,
wherever the marker stands; and so are the terminals on which it is reduced in one state or another.
Each marker position is there in some state if the left side is reachable, and in none if it is not.
-/
structure MergesToFollow (g : Grammar) (m : Automaton) : Prop where
  exists_has : ∀ p n right, g.Expands p n right → g.Reachable n → ∀ dot ≤ right.length,
    ∃ (i : StateId) (q : State), m.states[i]? = some q ∧ q.items.Has ⟨p, dot⟩
  lookaheads_eq : ∀ p n right, g.Expands p n right → ∀ dot ≤ right.length,
    m.lookaheads ⟨p, dot⟩ = {t | g.Follow n t}
  reducedOn_eq : ∀ p n right, g.Expands p n right → m.reducedOn g p = {t | g.Follow n t}
  reductions_subset : ∀ (i : StateId) q, m.states[i]? = some q →
    ∃ reductions, q.reductions g m.arena = .ok reductions ∧ ∀ p lookahead,
      (p, lookahead) ∈ reductions →
        ∃ n right, g.Expands p n right ∧ ∀ t ∈ lookahead, g.Follow n t
  reachable_of_has : ∀ (i : StateId) q, m.states[i]? = some q → ∀ x, q.items.Has x →
    ∃ n right, g.Expands x.production n right ∧ g.Reachable n

end Automaton

/-- **Merged lookaheads are follow sets**, for every defined grammar and every limit under which
building succeeds. -/
theorem mergesToFollow_of_build {limit : Option Nat} {m : Automaton} (hg : g.IsDefined)
    (h : Automaton.build g limit = .ok m) : m.MergesToFollow g := by
  have wf := hg.wellFormed
  have hm := Automaton.isComplete_of_build wf h
  have hlookaheads {p : ProductionId} {n : NonterminalId} {right : List Symbol} {dot : Nat}
      (hp : g.Expands p n right) (hdot : dot ≤ right.length) :
      m.lookaheads ⟨p, dot⟩ = {t | g.Follow n t} :=
    Set.ext fun t => hm.mem_lookaheads_iff.trans (follow_iff_lr1Valid wf hp hdot).symm
  have hreducedOn {p : ProductionId} {n : NonterminalId} {right : List Symbol}
      (hp : g.Expands p n right) : m.reducedOn g p = {t | g.Follow n t} := by
    rw [hm.reducedOn_eq wf hp, hlookaheads hp (Nat.le_refl _)]
  constructor
  case exists_has =>
    intro p n right hp hreachable dot hdot
    exact hm.exists_has_iff.mpr ((reachable_iff_lr0Valid wf hp hdot).mp hreachable)
  case lookaheads_eq => exact fun p n right hp dot hdot => hlookaheads hp hdot
  case reducedOn_eq => exact fun p n right hp => hreducedOn hp
  case reductions_subset =>
    intro i q hq
    obtain ⟨reductions, hreductions, hspec⟩ := hm.reductions_spec wf hq
    refine ⟨reductions, hreductions, fun p lookahead hmem => ?_⟩
    obtain ⟨n, right, -, -, hp, -⟩ := (hspec p lookahead).mp hmem
    refine ⟨n, right, hp, fun t ht => ?_⟩
    have hreduced : t ∈ m.reducedOn g p := ⟨i, q, reductions, lookahead, hq, hreductions, hmem, ht⟩
    rw [hreducedOn hp] at hreduced
    exact hreduced
  case reachable_of_has =>
    intro i q hq x hx
    obtain ⟨γ, hvalid⟩ := hm.exists_has_iff.mp ⟨i, q, hq, hx⟩
    obtain ⟨n, right, hp, -⟩ := hvalid.expands wf
    exact ⟨n, right, hp, hvalid.reachable wf hp⟩

/-- Of the assignments through pointers, some state reduces `R := L` on `EQUAL`, so `EQUAL` can
follow `R`. -/
theorem mergesToFollow_pointer : ∃ g m right, Grammar.define Examples.pointer = .ok g ∧
    Automaton.build g none = .ok m ∧ m.MergesToFollow g ∧ g.Expands 5 3 right ∧
    1 ∈ m.reducedOn g 5 ∧ g.Follow 3 1 := by
  obtain ⟨g, m, hdefine, hbuild, hcheck⟩ := exists_build_of_check Examples.pointer
    (fun g m => (g.productions[5]?.any fun production => production.left == 3) &&
      m.states[8]?.any fun q => (q.reductions g m.arena).toOption.any fun reductions =>
        reductions.any fun reduction => reduction.1 == 5 && decide (1 ∈ reduction.2))
    (by decide +kernel)
  obtain ⟨hproduction, hreduced⟩ := Bool.and_eq_true_iff.mp hcheck
  obtain ⟨production, hproduction, hleft⟩ := (Option.any_eq_true _ _).mp hproduction
  obtain ⟨q, hq, hreduced⟩ := (Option.any_eq_true _ _).mp hreduced
  have hmerges := mergesToFollow_of_build (.of_define hdefine) hbuild
  obtain ⟨reductions, hreductions, -⟩ := hmerges.reductions_subset 8 q hq
  simp only [hreductions, Except.toOption, Option.any_some, List.any_eq_true, Bool.and_eq_true,
    beq_iff_eq, decide_eq_true_eq] at hreduced
  obtain ⟨⟨p, lookahead⟩, hmem, rfl, ht⟩ := hreduced
  have hp : g.Expands 5 3 production.right.toList :=
    ⟨production, hproduction, eq_of_beq hleft, rfl⟩
  have hreduced : 1 ∈ m.reducedOn g 5 := ⟨8, q, reductions, lookahead, hq, hreductions, hmem, ht⟩
  have hfollow := hreduced
  rw [hmerges.reducedOn_eq 5 3 _ hp] at hfollow
  exact ⟨g, m, _, hdefine, hbuild, hmerges, hp, hreduced, hfollow⟩

end Lalr
