import Lalr.Proofs.Automaton.Count
import Lalr.Proofs.Automaton.Lookaheads

/-!
# Reductions are not missing

A state reduces its complete items, each on its lookahead
(`IsComplete.reductions_spec`). Whatever a rightmost derivation expands is reduced
in the state to which it leads, on the terminal that comes next
(`mem_reductions_of_derivesRightmost`).
-/

namespace Lalr

open Grammar

variable {g : Grammar}

/-- The reductions of a state, if the test for the end fails on none of its items. -/
theorem State.reductions_eq {q : State} {a : Arena} {items : List Item} {isEnd : Item → Bool}
    (hitems : q.items.items a = .ok items)
    (hend : ∀ item ∈ items, item.isComplete g = .ok (isEnd item)) :
    q.reductions g a =
      .ok ((items.filter isEnd).map fun item => (item.core.production, item.lookahead)) :=
  bind_eq_ok_iff.mpr ⟨items, hitems, bind_eq_ok_iff.mpr ⟨_, filterM_eq_ok hend, rfl⟩⟩

namespace Automaton.IsComplete

variable {m : Automaton} {i : StateId} {q : State}

/-- A state reduces the productions of its items with the marker at the end, each on the lookahead
of the item. -/
theorem reductions_spec (wf : g.WellFormed) (hm : m.IsComplete g)
    (hq : m.states[i]? = some q) : ∃ reductions, q.reductions g m.arena = .ok reductions ∧
      ∀ p lookahead, (p, lookahead) ∈ reductions ↔ ∃ n right k item, g.Expands p n right ∧
        (item.core, k) ∈ q.items.toList ∧ m.arena[k]? = some item ∧
        item.core.dotted = ⟨p, right.length⟩ ∧ item.lookahead = lookahead := by
  have hi := getElem?_sets_of_getElem? hq
  obtain ⟨items, hitems, -, hmem⟩ := (hm.collection.closed hi).isOver.exists_items
  -- no item fails the test for its end
  have hcomplete (item : Item) (hitem : item ∈ items) : ∃ n right,
      g.Expands item.core.production n right ∧ item.core.dot.toNat ≤ right.length ∧
        item.isComplete g = .ok right[item.core.dot.toNat]?.isNone := by
    obtain ⟨k, hk, -⟩ := (hmem item).mp hitem
    obtain ⟨n, right, hp, hle⟩ := hm.collection.expands_of_has wf hi (ItemSet.has_of_mem hk)
    exact ⟨n, right, hp, hle, bind_eq_ok_iff.mpr ⟨_, Core.next?_of_expands hp, rfl⟩⟩
  let isEnd (item : Item) : Bool := (item.isComplete g).toOption.getD false
  have hend (item : Item) (hitem : item ∈ items) : item.isComplete g = .ok (isEnd item) := by
    obtain ⟨n, right, -, -, htest⟩ := hcomplete item hitem
    simp [isEnd, htest, Except.toOption]
  refine ⟨_, State.reductions_eq hitems hend, fun p lookahead => ?_⟩
  rw [List.mem_map]
  constructor
  · rintro ⟨item, hitem, heq⟩
    cases heq
    obtain ⟨hin, hend⟩ := List.mem_filter.mp hitem
    obtain ⟨n, right, hp, hle, htest⟩ := hcomplete item hin
    obtain ⟨k, hk, hget⟩ := (hmem item).mp hin
    have hge : right.length ≤ item.core.dot.toNat := by
      simpa [isEnd, htest, Except.toOption] using hend
    refine ⟨n, right, k, item, hp, hk, hget, ?_, rfl⟩
    rw [Core.dotted, Nat.le_antisymm hle hge]
  · rintro ⟨n, right, k, item, hp, hk, hget, hdotted, rfl⟩
    have hin : item ∈ items := (hmem item).mpr ⟨k, hk, hget⟩
    have hproduction : item.core.production = p := congrArg Dotted.production hdotted
    have hdot : item.core.dot.toNat = right.length := congrArg Dotted.dot hdotted
    obtain ⟨n', right', hp', -, htest⟩ := hcomplete item hin
    rw [hproduction] at hp'
    obtain ⟨-, rfl⟩ := hp.unique hp'
    refine ⟨item, List.mem_filter.mpr ⟨hin, ?_⟩, by rw [hproduction]⟩
    simp [isEnd, htest, hdot, Except.toOption]

end Automaton.IsComplete

/-- **No reduction is missing**: when a rightmost derivation expands the nonterminal before the
terminals `w` by production `p`, the string up to the end of the right-hand side leads to a state
that reduces `p` on the first of them. -/
theorem mem_reductions_of_derivesRightmost {limit : Option Nat} {m : Automaton}
    {γ right : List Symbol} {n : NonterminalId} {w : List TerminalId} {p : ProductionId}
    (hg : g.IsDefined) (hbuild : Automaton.build g limit = .ok m)
    (hderives : g.DerivesRightmost [.nonterminal startNonterminal]
      (γ ++ .nonterminal n :: w.map .terminal)) (hp : g.Expands p n right) :
    ∃ i q reductions lookahead, m.follow (γ ++ right) = some i ∧ m.states[i]? = some q ∧
      q.reductions g m.arena = .ok reductions ∧ (p, lookahead) ∈ reductions ∧
      w.headD endOfInput ∈ lookahead := by
  have wf := hg.wellFormed
  have hm := Automaton.isComplete_of_build wf hbuild
  have hvalid := lr1Valid_of_derivesRightmost wf hderives hp
  obtain ⟨i, hfollow⟩ := hm.exists_follow_iff.mpr (.inr ⟨_, hvalid.lr0Valid⟩)
  obtain ⟨kernel, items, hi, -⟩ := hm.has_iff_of_follow hfollow
  obtain ⟨core, k, hk, hdotted, ht⟩ := hm.exists_receives hvalid hfollow hi
  obtain ⟨q, hq, rfl, rfl⟩ := Automaton.getElem?_sets_eq_some_iff.mp hi
  obtain ⟨item, hget, rfl⟩ :=
    Arena.getElem?_cores_eq_some_iff.mp ((hm.collection.closed hi).isOver.stored hk)
  obtain ⟨reductions, hreductions, hmem⟩ := hm.reductions_spec wf hq
  refine ⟨i, q, reductions, item.lookahead, hfollow, hq, hreductions,
    (hmem p _).mpr ⟨n, right, k, item, hp, hk, hget, hdotted, rfl⟩, ?_⟩
  exact (Arena.looks_iff hget).mp (hm.looks_iff.mpr ht)

/-- Of the assignments through pointers, `* R = ID` is derived from the start with `R` as its last
nonterminal. Expanding it to `L`, the state after `* L` reduces `R := L` before `=`. -/
theorem mem_reductions_pointer : ∃ g m, Grammar.define Examples.pointer = .ok g ∧
    Automaton.build g none = .ok m ∧
    g.DerivesRightmost [.nonterminal startNonterminal]
      [.terminal 2, .nonterminal 3, .terminal 1, .terminal 3] ∧
    g.Expands 5 3 [.nonterminal 2] ∧
    ∃ i q reductions lookahead, m.follow [.terminal 2, .nonterminal 2] = some i ∧
      m.states[i]? = some q ∧ q.reductions g m.arena = .ok reductions ∧
      (5, lookahead) ∈ reductions ∧ 1 ∈ lookahead := by
  obtain ⟨g, m, hdefine, hbuild, hcheck⟩ := exists_build_of_check Examples.pointer
    (fun g _ => g.productions.map Production.toRule == #[⟨0, #[.nonterminal 1]⟩,
      ⟨1, #[.nonterminal 2, .terminal 1, .nonterminal 3]⟩, ⟨1, #[.nonterminal 3]⟩,
      ⟨2, #[.terminal 2, .nonterminal 3]⟩, ⟨2, #[.terminal 3]⟩, ⟨3, #[.nonterminal 2]⟩])
    (by decide +kernel)
  have hexpands {p : ProductionId} {n : NonterminalId} {right : List Symbol}
      (hrule : (g.productions.map Production.toRule)[p]? = some ⟨n, right.toArray⟩) :
      g.Expands p n right := by
    rw [Array.getElem?_map, Option.map_eq_some_iff] at hrule
    obtain ⟨production, hproduction, hrule⟩ := hrule
    exact ⟨production, hproduction, congrArg Rule.left hrule,
      congrArg (fun rule => rule.right.toList) hrule⟩
  rw [eq_of_beq hcheck] at hexpands
  have hstart : g.Expands 0 0 [.nonterminal 1] := hexpands rfl
  have hassign : g.Expands 1 1 [.nonterminal 2, .terminal 1, .nonterminal 3] := hexpands rfl
  have hpoint : g.Expands 3 2 [.terminal 2, .nonterminal 3] := hexpands rfl
  have hname : g.Expands 4 2 [.terminal 3] := hexpands rfl
  have hvalue : g.Expands 5 3 [.nonterminal 2] := hexpands rfl
  -- the right-hand side of the assignment is expanded before its left-hand side
  have hderives : g.DerivesRightmost [.nonterminal startNonterminal]
      [.terminal 2, .nonterminal 3, .terminal 1, .terminal 3] := by
    refine .head (.expand hstart [] []) (.head (.expand hassign [] []) ?_)
    refine .head (.expand hvalue [.nonterminal 2, .terminal 1] []) ?_
    refine .head (.expand hname [.nonterminal 2, .terminal 1] []) ?_
    exact .single (.expand hpoint [] [1, 3])
  have hmem := @mem_reductions_of_derivesRightmost g none m [.terminal 2] [.nonterminal 2] 3 [1, 3]
    5 (.of_define hdefine) hbuild hderives hvalue
  exact ⟨g, m, hdefine, hbuild, hderives, hvalue, hmem⟩

end Lalr
