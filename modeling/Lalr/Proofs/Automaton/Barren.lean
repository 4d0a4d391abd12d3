import Lalr.Proofs.Automaton.Reductions
import Lalr.Proofs.Grammar.Outcome

/-!
# Empty lookaheads

An item of an automaton looks at some terminal, unless what stands behind a
nonterminal of a rule can neither be empty nor begin with a terminal.

- `Grammar.IsBarren`: a nonterminal derives neither the empty string nor any
  string that begins with a terminal.
- `nullable_or_first`: a string without such nonterminals can be empty or begins
  with some terminal.
- `Lr0Valid.exists_lr1Valid_or`: so a valid item is valid on some terminal, or a
  rule uses a barren nonterminal.
- `looksUnlessBarren_of_build`: the same of the items and of the reductions of an
  automaton, in terms of the tables of the grammar.
-/

namespace Lalr

open Grammar

variable {g : Grammar} {n : NonterminalId} {t : TerminalId} {x : Dotted} {p : ProductionId}
variable {β γ : List Symbol} {nonterminal : Nonterminal}

namespace Grammar

/-- Some rule has the nonterminal in its right-hand side. The production of the start of the
augmented grammar is not a rule. -/
def IsUsed (g : Grammar) (n : NonterminalId) : Prop :=
  ∃ p m right, p ≠ acceptProduction ∧ g.Expands p m right ∧ .nonterminal n ∈ right

/-- The nonterminal derives neither the empty string nor a string that begins with a terminal. -/
def IsBarren (g : Grammar) (n : NonterminalId) : Prop :=
  ¬g.Nullable [.nonterminal n] ∧ ∀ t, ¬g.First [.nonterminal n] t

/-- A barren nonterminal derives no string of terminals. -/
theorem IsBarren.not_derives (h : g.IsBarren n) (w : List TerminalId) :
    ¬g.Derives [.nonterminal n] (w.map .terminal) := by
  intro hw
  cases w with
  | nil => exact h.1 hw
  | cons t w => exact h.2 t ⟨w.map .terminal, hw⟩

/-- A string can be empty or begins with some terminal, or one of its nonterminals is barren. -/
theorem nullable_or_first (g : Grammar) (β : List Symbol) :
    g.Nullable β ∨ (∃ t, g.First β t) ∨ ∃ n, .nonterminal n ∈ β ∧ g.IsBarren n := by
  induction β with
  | nil => exact .inl nullable_nil
  | cons X β ih =>
    cases X with
    | terminal t => exact .inr (.inl ⟨t, first_cons_iff.mpr (.inl (first_terminal_iff.mpr rfl))⟩)
    | nonterminal n =>
      by_cases hfirst : ∃ t, g.First [.nonterminal n] t
      · obtain ⟨t, ht⟩ := hfirst
        exact .inr (.inl ⟨t, first_cons_iff.mpr (.inl ht)⟩)
      · by_cases hnullable : g.Nullable [.nonterminal n]
        · -- the nonterminal can be left out, so the rest decides
          rcases ih with hβ | ⟨t, ht⟩ | ⟨m, hm, hbarren⟩
          · exact .inl (nullable_cons_iff.mpr ⟨hnullable, hβ⟩)
          · exact .inr (.inl ⟨t, first_cons_iff.mpr (.inr ⟨hnullable, ht⟩)⟩)
          · exact .inr (.inr ⟨m, List.mem_cons_of_mem _ hm, hbarren⟩)
        · exact .inr (.inr ⟨n, List.mem_cons_self, hnullable, not_exists.mp hfirst⟩)

/-- What stands behind the nonterminal after a marker is used by a rule: the production of the start
of the augmented grammar has nothing there. -/
theorem Predicts.isUsed (wf : g.WellFormed) (hp : g.Predicts x p β) (hn : .nonterminal n ∈ β) :
    g.IsUsed n := by
  obtain ⟨m, -, ⟨left, right, hx, hdrop⟩, -⟩ := hp
  refine ⟨x.production, left, right, fun haccept => ?_, hx, ?_⟩
  · rw [haccept] at hx
    obtain ⟨-, rfl⟩ := hx.unique wf.accept
    have hlength := congrArg List.length hdrop
    simp only [List.length_drop, List.length_cons, List.length_nil] at hlength
    obtain rfl : β = [] := List.eq_nil_of_length_eq_zero (by omega)
    exact List.not_mem_nil hn
  · exact List.mem_of_mem_drop (hdrop ▸ List.mem_cons_of_mem _ hn)

/-- A valid item is valid on some terminal, or some rule uses a barren nonterminal. -/
theorem Lr0Valid.exists_lr1Valid_or (wf : g.WellFormed) (h : g.Lr0Valid γ x) :
    (∃ t, g.Lr1Valid γ x t) ∨ ∃ n, g.IsUsed n ∧ g.IsBarren n := by
  induction h with
  | start => exact .inl ⟨endOfInput, .start⟩
  | @predict γ x p β hx hp ih =>
    rcases nullable_or_first g β with hβ | ⟨t, ht⟩ | ⟨n, hn, hbarren⟩
    · rcases ih with ⟨t, ht⟩ | hbarren
      · exact .inl ⟨t, ht.inherit hp hβ⟩
      · exact .inr hbarren
    · exact .inl ⟨t, .first hx hp ht⟩
    · exact .inr ⟨n, hp.isUsed wf hn, hbarren⟩
  | shift _ hX ih =>
    rcases ih with ⟨t, ht⟩ | hbarren
    · exact .inl ⟨t, ht.shift hX⟩
    · exact .inr hbarren

/-! ## In the tables -/

/-- The tables of a defined grammar show which nonterminals are barren. -/
theorem IsDefined.isBarren_iff (hg : g.IsDefined) (hn : g.nonterminals[n]? = some nonterminal) :
    g.IsBarren n ↔ nonterminal.nullable = false ∧ nonterminal.first = ∅ := by
  obtain ⟨steps, -, hdescribes⟩ := hg.exists_describes
  obtain ⟨hnullable, hfirst⟩ := hdescribes.tables n nonterminal hn
  refine and_congr ?_ ?_
  · rw [← hnullable, Bool.not_eq_true]
  · simp only [← hfirst]
    constructor
    · exact fun h => BitSet.ext fun t => iff_of_false (h t) (BitSet.not_mem_empty t)
    · exact fun h t => h ▸ BitSet.not_mem_empty t

theorem IsUsed.exists_nonterminal (wf : g.WellFormed) (h : g.IsUsed n) :
    ∃ nonterminal, g.nonterminals[n]? = some nonterminal := by
  obtain ⟨p, m, right, -, hp, hmem⟩ := h
  exact wf.known hp hmem

/-- By the tables, some rule uses a nonterminal that is not nullable and has an empty FIRST set. -/
def UsesBarren (g : Grammar) : Prop :=
  ∃ n nonterminal, g.IsUsed n ∧ g.nonterminals[n]? = some nonterminal ∧
    nonterminal.nullable = false ∧ nonterminal.first = ∅

theorem IsDefined.usesBarren_iff (hg : g.IsDefined) :
    g.UsesBarren ↔ ∃ n, g.IsUsed n ∧ g.IsBarren n := by
  constructor
  · rintro ⟨n, nonterminal, hused, hn, htables⟩
    exact ⟨n, hused, (hg.isBarren_iff hn).mpr htables⟩
  · rintro ⟨n, hused, hbarren⟩
    obtain ⟨nonterminal, hn⟩ := hused.exists_nonterminal hg.wellFormed
    exact ⟨n, nonterminal, hused, hn, (hg.isBarren_iff hn).mp hbarren⟩

end Grammar

namespace Automaton

variable {m : Automaton} {i : StateId} {kernel items : ItemSet} {core : Core} {k : ItemId}

/-- An item of a state looks at some terminal, or some rule uses a barren nonterminal. -/
theorem IsComplete.exists_looks_or (wf : g.WellFormed) (hm : m.IsComplete g)
    (hi : m.sets[i]? = some (kernel, items)) (hk : (core, k) ∈ items.toList) :
    (∃ t, m.arena.Looks k t) ∨ ∃ n, g.IsUsed n ∧ g.IsBarren n := by
  obtain ⟨γ, hfollow, hhas⟩ := hm.exists_follow_has_iff hi
  have hvalid : g.Lr0Valid γ core.dotted := (hhas _).mp (ItemSet.has_of_mem hk)
  rcases hvalid.exists_lr1Valid_or wf with ⟨t, ht⟩ | hbarren
  · exact .inl ⟨t, (hm.looks_iff_lr1Valid hi hk).mpr ⟨γ, hfollow, ht⟩⟩
  · exact .inr hbarren

/-- Only barren nonterminals leave lookaheads empty, those that are neither nullable nor have a
terminal in their FIRST set. If an item of a state looks at nothing or a reduction is on nothing,
some rule uses a barren nonterminal; if none does, every item looks at some terminal. A barren
nonterminal derives no string of terminals. -/
structure LooksUnlessBarren (g : Grammar) (m : Automaton) : Prop where
  items : ∀ (i : StateId) q, m.states[i]? = some q →
    ∃ items, q.items.items m.arena = .ok items ∧ items.map Item.core = q.items.cores ∧
      ∀ item ∈ items, item.lookahead = ∅ → g.UsesBarren
  reductions : ∀ (i : StateId) q, m.states[i]? = some q →
    ∃ reductions, q.reductions g m.arena = .ok reductions ∧
      ∀ reduction ∈ reductions, reduction.2 = ∅ → g.UsesBarren
  exists_mem : (∀ n nonterminal, g.IsUsed n → g.nonterminals[n]? = some nonterminal →
      nonterminal.nullable = true ∨ ∃ t, t ∈ nonterminal.first) →
    ∀ (i : StateId) q, m.states[i]? = some q → ∀ items, q.items.items m.arena = .ok items →
      ∀ item ∈ items, ∃ t, t ∈ item.lookahead
  not_derives : ∀ (n : NonterminalId) nonterminal, g.nonterminals[n]? = some nonterminal →
    nonterminal.nullable = false → nonterminal.first = ∅ →
    ∀ w : List TerminalId, ¬g.Derives [.nonterminal n] (w.map .terminal)

end Automaton

/-- **Lookaheads are empty only because of barren nonterminals**, for every defined grammar and
every limit under which building succeeds. -/
theorem looksUnlessBarren_of_build {limit : Option Nat} {m : Automaton} (hg : g.IsDefined)
    (h : Automaton.build g limit = .ok m) : m.LooksUnlessBarren g := by
  have wf := hg.wellFormed
  have hm := Automaton.isComplete_of_build wf h
  have hlooks {i : StateId} {q : State} {items : List Item} (hq : m.states[i]? = some q)
      (hitems : q.items.items m.arena = .ok items) (item : Item) (hitem : item ∈ items) :
      (∃ t, t ∈ item.lookahead) ∨ g.UsesBarren := by
    have hi := Automaton.getElem?_sets_of_getElem? hq
    obtain ⟨items', hitems', -, hmem⟩ := (hm.collection.closed hi).isOver.exists_items
    cases hitems.symm.trans hitems'
    obtain ⟨k, hk, hget⟩ := (hmem item).mp hitem
    rcases hm.exists_looks_or wf hi hk with ⟨t, ht⟩ | hbarren
    · exact .inl ⟨t, (Arena.looks_iff hget).mp ht⟩
    · exact .inr (hg.usesBarren_iff.mpr hbarren)
  have hempty {lookahead : TerminalSet} (hlooks : (∃ t, t ∈ lookahead) ∨ g.UsesBarren)
      (hempty : lookahead = ∅) : g.UsesBarren :=
    hlooks.resolve_left fun ⟨t, ht⟩ => BitSet.not_mem_empty t (hempty ▸ ht)
  constructor
  case items =>
    intro i q hq
    have hi := Automaton.getElem?_sets_of_getElem? hq
    obtain ⟨items, hitems, hcores, -⟩ := (hm.collection.closed hi).isOver.exists_items
    exact ⟨items, hitems, hcores, fun item hitem => hempty (hlooks hq hitems item hitem)⟩
  case reductions =>
    intro i q hq
    have hi := Automaton.getElem?_sets_of_getElem? hq
    obtain ⟨items, hitems, -, hmem⟩ := (hm.collection.closed hi).isOver.exists_items
    obtain ⟨reductions, hreductions, hspec⟩ := hm.reductions_spec wf hq
    refine ⟨reductions, hreductions, fun reduction hreduction => ?_⟩
    obtain ⟨n, right, k, item, -, hk, hget, -, heq⟩ := (hspec _ _).mp hreduction
    exact hempty (heq ▸ hlooks hq hitems item ((hmem item).mpr ⟨k, hk, hget⟩))
  case exists_mem =>
    intro hfertile i q hq items hitems item hitem
    refine (hlooks hq hitems item hitem).resolve_right ?_
    rintro ⟨n, nonterminal, hused, hn, hnullable, hfirst⟩
    rcases hfertile n nonterminal hused hn with hnullable' | ⟨t, ht⟩
    · rw [hnullable] at hnullable'
      cases hnullable'
    · exact BitSet.not_mem_empty t (hfirst ▸ ht)
  case not_derives =>
    intro n nonterminal hn hnullable hfirst
    exact ((hg.isBarren_iff hn).mpr ⟨hnullable, hfirst⟩).not_derives

/-- In the grammar with a dead end the state behind `X` reduces `A := X` on nothing, and `S := A U`
uses `U`, which derives no string of terminals. -/
theorem looksUnlessBarren_deadEnd : ∃ g m q reductions, Grammar.define Examples.deadEnd = .ok g ∧
    Automaton.build g none = .ok m ∧ m.LooksUnlessBarren g ∧ m.states[3]? = some q ∧
    q.reductions g m.arena = .ok reductions ∧ (2, ∅) ∈ reductions ∧ g.UsesBarren ∧
    ∀ w : List TerminalId, ¬g.Derives [.nonterminal 3] (w.map .terminal) := by
  obtain ⟨g, m, hdefine, hbuild, hcheck⟩ := exists_build_of_check Examples.deadEnd
    (fun g m => (g.nonterminals[3]?.any fun nonterminal =>
        nonterminal.nullable == false && nonterminal.first == ∅) &&
      m.states[3]?.any fun q => (q.reductions g m.arena).toOption == some [(2, ∅)])
    (by decide +kernel)
  simp only [Bool.and_eq_true, Option.any_eq_true, beq_iff_eq] at hcheck
  obtain ⟨⟨u, hu, hnullable, hfirst⟩, q, hq, hreduced⟩ := hcheck
  have hlooks := looksUnlessBarren_of_build (.of_define hdefine) hbuild
  obtain ⟨reductions, hreductions, hbarren⟩ := hlooks.reductions 3 q hq
  have hmem : (2, ∅) ∈ reductions := by
    rw [hreductions, Except.toOption, Option.some.injEq] at hreduced
    exact hreduced ▸ List.mem_singleton_self _
  exact ⟨g, m, q, reductions, hdefine, hbuild, hlooks, hq, hreductions, hmem, hbarren _ hmem rfl,
    hlooks.not_derives 3 u hu hnullable hfirst⟩

end Lalr
