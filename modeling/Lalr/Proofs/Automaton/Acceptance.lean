import Lalr.Proofs.Automaton.Links
import Lalr.Proofs.Automaton.Reductions

/-!
# Acceptance

The input is accepted when the first production is reduced: what the start symbol
derives has been read then. This happens in one state, on the end of the input
alone, whatever the rules say of the start symbol and of the end of the input.

- `Lr0Valid.eq_take_of_accept`, `lr1Valid_accept_iff`: the first production is
  never predicted. So its items are valid for one string each, and nothing follows
  them but the end of the input.
- `IsComplete.not_goes_start`, `IsComplete.symbol_unique`: how states are entered.
- `acceptance_of_build`: acceptance as a whole.
-/

namespace Lalr

open Grammar

variable {g : Grammar} {X Y : Symbol} {β γ : List Symbol} {x : Dotted} {t : TerminalId}

/-! ## The first production -/

namespace Grammar

/-- The marker of the first production moves over the start symbol only. -/
theorem After.of_accept (wf : g.WellFormed) (h : g.After x X β)
    (hx : x.production = acceptProduction) : x.dot = 0 ∧ X = .nonterminal g.start := by
  obtain ⟨n, right, hp, hdrop⟩ := h
  rw [hx] at hp
  obtain ⟨-, rfl⟩ := hp.unique wf.accept
  cases hdot : x.dot with
  | zero =>
    rw [hdot] at hdrop
    cases hdrop
    exact ⟨rfl, rfl⟩
  | succ d =>
    rw [hdot, List.drop_succ_cons, List.drop_nil] at hdrop
    cases hdrop

/-- An item of the first production is valid for what stands before its marker, and for no other
string. -/
theorem Lr0Valid.eq_take_of_accept (wf : g.WellFormed) (h : g.Lr0Valid γ x)
    (hx : x.production = acceptProduction) : γ = [.nonterminal g.start].take x.dot := by
  induction h with
  | start => rfl
  | predict _ hp => exact absurd hx (hp.ne_accept wf)
  | @shift γ x X β _ hX ih =>
    obtain ⟨hdot, rfl⟩ := hX.of_accept wf hx
    rw [ih hx, hdot]
    show [] ++ [Symbol.nonterminal g.start] = [Symbol.nonterminal g.start].take (x.dot + 1)
    rw [hdot]
    rfl

/-- The end of the input follows it, and nothing else does. -/
theorem lr1Valid_accept_iff (wf : g.WellFormed) (hx : x.production = acceptProduction) :
    g.Lr1Valid γ x t ↔ g.Lr0Valid γ x ∧ t = endOfInput := by
  constructor
  · intro h
    refine ⟨h.lr0Valid, ?_⟩
    induction h with
    | start => rfl
    | first _ hp _ => exact absurd hx (hp.ne_accept wf)
    | inherit _ hp _ _ => exact absurd hx (hp.ne_accept wf)
    | shift _ _ ih => exact ih hx
  · rintro ⟨h, rfl⟩
    induction h with
    | start => exact .start
    | predict _ hp => exact absurd hx (hp.ne_accept wf)
    | shift _ hX ih => exact (ih hx).shift hX

end Grammar

/-! ## How states are entered -/

namespace Automaton.IsComplete

variable {m : Automaton} {i i' j : StateId} {kernel items : ItemSet} {core : Core} {k : ItemId}

/-- No marker has moved in the start state. -/
theorem not_goes_start (hm : m.IsComplete g) : ¬m.Goes i X startState := by
  intro hgoes
  obtain ⟨K, I, K', I', -, hstart', hadvanced⟩ := hm.collection.advanced hgoes
  obtain ⟨kernel, items, hstart, hkernel⟩ := hm.collection.start
  cases hstart.symm.trans hstart'
  obtain ⟨x, β, -, -, hx⟩ := (hadvanced _).mp ((hkernel _).mpr rfl)
  have hdot : 0 = x.dot + 1 := congrArg Dotted.dot hx
  omega

/-- The markers in the kernel of a state have moved over one symbol, which is that of all
transitions to the state. -/
theorem symbol_unique (hm : m.IsComplete g) (h : m.Goes i X j) (h' : m.Goes i' Y j) : X = Y := by
  obtain ⟨K, I, kernel, items, hi, hj, hadvanced⟩ := hm.collection.advanced h
  obtain ⟨K', I', kernel', items', -, hj', hadvanced'⟩ := hm.collection.advanced h'
  cases hj.symm.trans hj'
  obtain ⟨x, β, hx, hX⟩ := hm.collection.awaits hi h
  obtain ⟨y, β', -, hY, heq⟩ := (hadvanced' _).mp ((hadvanced _).mpr ⟨x, β, hx, hX, rfl⟩)
  obtain rfl : x = y := by
    obtain ⟨p, d⟩ := x
    obtain ⟨q, e⟩ := y
    simp only [Dotted.advance, Dotted.mk.injEq, Nat.add_right_cancel_iff] at heq
    rw [heq.1, heq.2]
  exact (hX.unique hY).1

/-! ## Items of the first production -/

/-- An item of the first production looks at the end of the input only. -/
theorem lookahead_accept {item : Item} (wf : g.WellFormed) (hm : m.IsComplete g)
    (hi : m.sets[i]? = some (kernel, items)) (hk : (item.core, k) ∈ items.toList)
    (hget : m.arena[k]? = some item) (hx : item.core.production = acceptProduction) :
    item.lookahead = .singleton endOfInput := by
  ext t
  rw [BitSet.mem_singleton, ← Arena.looks_iff hget, hm.looks_iff_lr1Valid hi hk]
  constructor
  · rintro ⟨γ, -, hvalid⟩
    exact ((lr1Valid_accept_iff wf hx).mp hvalid).2
  · rintro rfl
    obtain ⟨γ, hfollow, hhas⟩ := hm.exists_follow_has_iff hi
    have hvalid : g.Lr0Valid γ item.core.dotted := (hhas _).mp (ItemSet.has_of_mem hk)
    exact ⟨γ, hfollow, (lr1Valid_accept_iff wf hx).mpr ⟨hvalid, rfl⟩⟩

theorem follow_singleton : m.follow [X] = m.step? startState X := by
  show m.step? startState X >>= pure = m.step? startState X
  exact bind_pure _

/-- The first production is complete in the state to which the start symbol leads, and there
only. -/
theorem has_accept_iff (wf : g.WellFormed) (hm : m.IsComplete g)
    (hi : m.sets[i]? = some (kernel, items)) :
    items.Has ⟨acceptProduction, 1⟩ ↔ m.step? startState (.nonterminal g.start) = some i := by
  rw [← follow_singleton]
  constructor
  · intro hhas
    obtain ⟨γ, hfollow, hiff⟩ := hm.exists_follow_has_iff hi
    have hγ : γ = [.nonterminal g.start] := ((hiff _).mp hhas).eq_take_of_accept wf rfl
    rw [← hγ, hfollow]
  · intro hfollow
    obtain ⟨K, I, hi', hiff⟩ := hm.has_iff_of_follow hfollow
    cases hi.symm.trans hi'
    exact (hiff _).mpr (Lr0Valid.start.shift ⟨_, _, wf.accept, rfl⟩)

end Automaton.IsComplete

/-- **Acceptance happens in one place, and at the end of the input only.** No transition leads to
the start state, and all transitions to another state are for the same symbol. The first production
is reduced in the state to which the start symbol leads from the start, on nothing but the end of
the input, and in no other state. In the start state, too, its item looks at nothing but the end of
the input. -/
theorem acceptance_of_build {limit : Option Nat} {m : Automaton} (hg : g.IsDefined)
    (h : Automaton.build g limit = .ok m) :
    (∀ i X, ¬m.Goes i X startState) ∧
    (∀ i X i' Y j, m.Goes i X j → m.Goes i' Y j → X = Y) ∧
    (∃ j, m.step? startState (.nonterminal g.start) = some j ∧ j < m.states.size ∧
      ∀ (i : StateId) q, m.states[i]? = some q →
        ∃ reductions, q.reductions g m.arena = .ok reductions ∧
          ∀ lookahead, (acceptProduction, lookahead) ∈ reductions ↔
            i = j ∧ lookahead = .singleton endOfInput) ∧
    ∃ q k item, m.states[startState]? = some q ∧ q.items.find? ⟨acceptProduction, 0⟩ = some k ∧
      m.arena[k]? = some item ∧ item.lookahead = .singleton endOfInput := by
  have wf := hg.wellFormed
  have hm := Automaton.isComplete_of_build wf h
  refine ⟨fun i X => hm.not_goes_start, fun i X i' Y j => hm.symbol_unique, ?_, ?_⟩
  · have hvalid : g.Lr0Valid [.nonterminal g.start] ⟨acceptProduction, 1⟩ :=
      Lr0Valid.start.shift ⟨_, _, wf.accept, rfl⟩
    obtain ⟨j, hfollow⟩ := hm.exists_follow_iff.mpr (.inr ⟨_, hvalid⟩)
    obtain ⟨kernel, items, hj, -⟩ := hm.has_iff_of_follow hfollow
    rw [Automaton.IsComplete.follow_singleton] at hfollow
    have hlt : j < m.states.size := m.length_sets ▸ (List.getElem?_eq_some_iff.mp hj).choose
    refine ⟨j, hfollow, hlt, fun i q hq => ?_⟩
    have hi := Automaton.getElem?_sets_of_getElem? hq
    obtain ⟨reductions, hreductions, hmem⟩ := hm.reductions_spec wf hq
    refine ⟨reductions, hreductions, fun lookahead => ?_⟩
    rw [hmem]
    constructor
    · rintro ⟨n, right, k, item, hp, hk, hget, hdotted, rfl⟩
      obtain ⟨-, rfl⟩ := hp.unique wf.accept
      have hhas : q.items.Has ⟨acceptProduction, 1⟩ := hdotted ▸ ItemSet.has_of_mem hk
      have hstep := (hm.has_accept_iff wf hi).mp hhas
      refine ⟨Option.some.inj (hstep.symm.trans hfollow), ?_⟩
      exact hm.lookahead_accept wf hi hk hget (congrArg Dotted.production hdotted)
    · rintro ⟨rfl, rfl⟩
      obtain ⟨core, k, hk, hdotted⟩ := ((hm.has_accept_iff wf hi).mpr hfollow).exists_mem
      obtain ⟨item, hget, rfl⟩ := (hm.collection.closed hi).isOver.exists_item hk
      exact ⟨_, _, k, item, wf.accept, hk, hget, hdotted,
        hm.lookahead_accept wf hi hk hget (congrArg Dotted.production hdotted)⟩
  · obtain ⟨kernel, items, k, hstart, hk⟩ := hm.exists_start_mem
    have hmem := hm.kernel_subset hstart hk
    obtain ⟨q, hq, rfl, rfl⟩ := Automaton.getElem?_sets_eq_some_iff.mp hstart
    obtain ⟨item, hget, hcore⟩ := (hm.collection.closed hstart).isOver.exists_item hmem
    refine ⟨q, k, item, hq, (hm.find?_items_eq_some_iff hq).mpr hmem, hget, ?_⟩
    exact hm.lookahead_accept wf hstart (hcore ▸ hmem) hget (by rw [hcore])

/-- The start symbol can be empty here and derives itself, and the end of the input is a symbol of
the rules: the state after `S` reduces `S := S` and `A := S`, too, but it accepts on the end of the
input only. -/
theorem acceptance_entangled : ∃ g m q reductions, Grammar.define Examples.entangled = .ok g ∧
    Automaton.build g none = .ok m ∧ m.step? startState (.nonterminal 1) = some 1 ∧
    m.states[1]? = some q ∧ q.reductions g m.arena = .ok reductions ∧
    reductions.map Prod.fst = [acceptProduction, 2, 4] ∧
    ∀ lookahead, (acceptProduction, lookahead) ∈ reductions ↔
      lookahead = .singleton endOfInput := by
  obtain ⟨g, m, hdefine, hbuild, hcheck⟩ := exists_build_of_check Examples.entangled
    (fun g m => g.start == 1 && m.step? startState (.nonterminal 1) == some 1 &&
      m.states[1]?.any fun q => (q.reductions g m.arena).toOption.any fun reductions =>
        reductions.map Prod.fst == [acceptProduction, 2, 4])
    (by decide +kernel)
  simp only [Bool.and_eq_true, beq_iff_eq, Option.any_eq_true] at hcheck
  obtain ⟨⟨hstart, hstep⟩, q, hq, reductions, hreductions, hproductions⟩ := hcheck
  obtain ⟨-, -, ⟨j, hj, -, haccept⟩, -⟩ := acceptance_of_build (.of_define hdefine) hbuild
  rw [hstart] at hj
  cases hstep.symm.trans hj
  obtain ⟨reductions', hreductions', hmem⟩ := haccept 1 q hq
  obtain rfl : reductions' = reductions := by
    rw [hreductions'] at hreductions
    exact Option.some.inj hreductions
  refine ⟨g, m, q, reductions', hdefine, hbuild, hstep, hq, hreductions', hproductions,
    fun lookahead => ?_⟩
  rw [hmem]
  exact ⟨And.right, fun hlookahead => ⟨rfl, hlookahead⟩⟩

end Lalr
