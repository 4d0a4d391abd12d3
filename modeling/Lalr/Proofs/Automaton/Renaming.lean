import Lalr.Proofs.Automaton.Limit
import Lalr.Proofs.Automaton.Reductions
import Lalr.Proofs.Grammar.Reordered

/-!
# States under other numbers

The order of the rules shows in the numbers of productions, states and items and
in nothing else (`exists_sameUpTo_of_reordered`).

- `Automaton.Renamed`: one automaton comes from another when productions and
  states get other numbers.
- `Automaton.Alike`: some string leads to both states, each in its automaton. Both
  have the items that are valid for the string, on the terminals on which they are
  valid, so this relation is one to one.
- `Twins.exists_item`, `Twins.mem_reductions`: what such states have in common.
- `Twins.exists_renamed`: the relation is the bijection of the states.

As before, every statement is proved in one direction, and the other one is that of
the twins with their places exchanged (`Twins.symm`).
-/

namespace Lalr

open Grammar

namespace Automaton

variable {g g' : Grammar} {m m' : Automaton} {π : Equiv.Perm ProductionId}
variable {σ : Equiv.Perm StateId} {i j i' j' : StateId} {γ : List Symbol} {X : Symbol}

/-! ## Automata under other numbers -/

/-- A state and the one that stands for it where productions and states have other numbers: kernels
and closures have the same cores, items the same lookaheads, the transitions lead to states that
stand for each other, and the same productions are reduced on the same terminals. -/
structure SameState (π : Equiv.Perm ProductionId) (σ : Equiv.Perm StateId) (g g' : Grammar)
    (a a' : Arena) (q q' : State) : Prop where
  kernel_iff : ∀ c, c.rename π ∈ q'.kernel.cores ↔ c ∈ q.kernel.cores
  items_iff : ∀ c, c.rename π ∈ q'.items.cores ↔ c ∈ q.items.cores
  transitions_iff : ∀ X j, (X, σ j) ∈ q'.transitions.toList ↔ (X, j) ∈ q.transitions.toList
  lookaheads_iff : ∃ items items', q.items.items a = .ok items ∧ q'.items.items a' = .ok items' ∧
    ∀ c lookahead, (∃ item ∈ items', item.core = c.rename π ∧ item.lookahead = lookahead) ↔
      ∃ item ∈ items, item.core = c ∧ item.lookahead = lookahead
  reductions_iff : ∃ reductions reductions', q.reductions g a = .ok reductions ∧
    q'.reductions g' a' = .ok reductions' ∧
    ∀ p lookahead, (π p, lookahead) ∈ reductions' ↔ (p, lookahead) ∈ reductions

/-- The automaton `m'` of `g'` is the automaton `m` of `g` with other numbers for productions and
states. The start state keeps its number. -/
structure Renamed (π : Equiv.Perm ProductionId) (σ : Equiv.Perm StateId) (g g' : Grammar)
    (m m' : Automaton) : Prop where
  start : σ startState = startState
  lt_size_iff : ∀ i, σ i < m'.states.size ↔ i < m.states.size
  states : ∀ (i : StateId) q, m.states[i]? = some q →
    ∃ q', m'.states[σ i]? = some q' ∧ SameState π σ g g' m.arena m'.arena q q'

/-- Both fail alike, or both succeed with the same automaton under other numbers. -/
inductive SameUpTo (π : Equiv.Perm ProductionId) (g g' : Grammar) :
    Except BuildError Automaton → Except BuildError Automaton → Prop where
  | error (e : BuildError) : SameUpTo π g g' (.error e) (.error e)
  | ok {m m' : Automaton} (σ : Equiv.Perm StateId) (h : Renamed π σ g g' m m') :
    SameUpTo π g g' (.ok m) (.ok m')

/-! ## States with the same strings -/

/-- Some string leads to both states. -/
def Alike (m m' : Automaton) (i i' : StateId) : Prop :=
  ∃ γ, m.follow γ = some i ∧ m'.follow γ = some i'

theorem Alike.symm (h : Alike m m' i i') : Alike m' m i' i :=
  h.imp fun _ => And.symm

/-- Two automata with all their states, of grammars with the same productions under other
numbers. -/
structure Twins (π : Equiv.Perm ProductionId) (g g' : Grammar) (m m' : Automaton) : Prop where
  wf : g.WellFormed
  wf' : g'.WellFormed
  renamed : Grammar.Renamed π g g'
  complete : m.IsComplete g
  complete' : m'.IsComplete g'

namespace Twins

theorem symm (h : Twins π g g' m m') : Twins π.symm g' g m' m :=
  ⟨h.wf', h.wf, h.renamed.symm, h.complete', h.complete⟩

/-- A string that leads to a state of one leads to a state of the other. -/
theorem exists_follow (h : Twins π g g' m m') (hi : m.follow γ = some i) :
    ∃ i', m'.follow γ = some i' := by
  rw [h.complete'.exists_follow_iff, h.renamed.exists_lr0Valid_iff,
    ← h.complete.exists_follow_iff]
  exact ⟨i, hi⟩

/-- States to which a string leads have the same items. -/
theorem exists_sets (h : Twins π g g' m m') (halike : Alike m m' i i') :
    ∃ K I K' I', m.sets[i]? = some (K, I) ∧ m'.sets[i']? = some (K', I') ∧
      ∀ x, I'.Has (x.rename π) ↔ I.Has x := by
  obtain ⟨γ, hfollow, hfollow'⟩ := halike
  obtain ⟨K, I, hi, hI⟩ := h.complete.has_iff_of_follow hfollow
  obtain ⟨K', I', hi', hI'⟩ := h.complete'.has_iff_of_follow hfollow'
  refine ⟨K, I, K', I', hi, hi', fun x => ?_⟩
  rw [hI, hI', h.renamed.lr0Valid_iff]

theorem lt_size_of_alike (h : Twins π g g' m m') (halike : Alike m m' i i') :
    i < m.states.size := by
  obtain ⟨K, I, K', I', hi, -, -⟩ := h.exists_sets halike
  exact m.length_sets ▸ (List.getElem?_eq_some_iff.mp hi).choose

theorem exists_alike (h : Twins π g g' m m') (hi : i < m.states.size) :
    ∃ i' < m'.states.size, Alike m m' i i' := by
  obtain ⟨γ, hfollow⟩ := h.complete.exists_follow (m.length_sets ▸ hi)
  obtain ⟨i', hfollow'⟩ := h.exists_follow hfollow
  have halike : Alike m m' i i' := ⟨γ, hfollow, hfollow'⟩
  exact ⟨i', h.symm.lt_size_of_alike halike.symm, halike⟩

theorem alike_left_unique (h : Twins π g g' m m') (hi : Alike m m' i i')
    (hj : Alike m m' j i') : i = j := by
  obtain ⟨K, I, K', I', hi, hi', hI⟩ := h.exists_sets hi
  obtain ⟨L, J, L', J', hj, hj', hJ⟩ := h.exists_sets hj
  cases hi'.symm.trans hj'
  refine h.complete.collection.state_unique_of_has h.wf h.complete.distinct hi hj fun x => ?_
  rw [← hI, hJ]

theorem alike_right_unique (h : Twins π g g' m m') (hi : Alike m m' i i')
    (hj : Alike m m' i j') : i' = j' :=
  h.symm.alike_left_unique hi.symm hj.symm

theorem follow_of_alike (h : Twins π g g' m m') (halike : Alike m m' i i')
    (hfollow : m.follow γ = some i) : m'.follow γ = some i' := by
  obtain ⟨j', hfollow'⟩ := h.exists_follow hfollow
  rw [hfollow', h.alike_right_unique ⟨γ, hfollow, hfollow'⟩ halike]

/-- A symbol leads from states with a string to states with a string. -/
theorem exists_step (h : Twins π g g' m m') (halike : Alike m m' i i')
    (hstep : m.step? i X = some j) : ∃ j', m'.step? i' X = some j' ∧ Alike m m' j j' := by
  obtain ⟨γ, hfollow, hfollow'⟩ := halike
  have hnext := follow_concat_eq_some_iff.mpr ⟨i, hfollow, hstep⟩
  obtain ⟨j', hnext'⟩ := h.exists_follow hnext
  obtain ⟨k, hk, hstep'⟩ := follow_concat_eq_some_iff.mp hnext'
  cases hfollow'.symm.trans hk
  exact ⟨j', hstep', γ ++ [X], hnext, hnext'⟩

variable {K I K' I' : ItemSet} {k : ItemId} {item : Item} {q q' : State} {p : ProductionId}
variable {lookahead : TerminalSet}

theorem has_rename_iff (h : Twins π g g' m m') (halike : Alike m m' i i')
    (hi : m.sets[i]? = some (K, I)) (hi' : m'.sets[i']? = some (K', I')) (x : Dotted) :
    I'.Has (x.rename π) ↔ I.Has x := by
  obtain ⟨_, _, _, _, hsame, hsame', hhas⟩ := h.exists_sets halike
  cases hi.symm.trans hsame
  cases hi'.symm.trans hsame'
  exact hhas x

/-- An item has its place in the other state, with the same lookahead: what makes it valid makes it
valid there. -/
theorem exists_item (h : Twins π g g' m m') (halike : Alike m m' i i')
    (hi : m.sets[i]? = some (K, I)) (hi' : m'.sets[i']? = some (K', I'))
    (hk : (item.core, k) ∈ I.toList) (hget : m.arena[k]? = some item) :
    ∃ k' item', (item'.core, k') ∈ I'.toList ∧ m'.arena[k']? = some item' ∧
      item'.core = item.core.rename π ∧ item'.lookahead = item.lookahead := by
  have hplace : I'.Has (item.core.rename π).dotted :=
    (h.has_rename_iff halike hi hi' _).mpr (ItemSet.has_of_mem hk)
  obtain ⟨k', hk'⟩ := ItemSet.exists_mem_of_has hplace
  obtain ⟨item', hget', hcore⟩ := (h.complete'.collection.closed hi').isOver.exists_item hk'
  refine ⟨k', item', hcore ▸ hk', hget', hcore, BitSet.ext fun t => ?_⟩
  rw [← Arena.looks_iff hget, ← Arena.looks_iff hget', h.complete.looks_iff_lr1Valid hi hk,
    h.complete'.looks_iff_lr1Valid hi' hk', Core.dotted_rename]
  refine exists_congr fun γ => ?_
  rw [h.renamed.lr1Valid_iff]
  refine and_congr_left fun _ => ⟨?_, ?_⟩
  · exact h.symm.follow_of_alike halike.symm
  · exact h.follow_of_alike halike

/-- What a state reduces is reduced in the other one. -/
theorem mem_reductions (h : Twins π g g' m m')
    {reductions reductions' : List (ProductionId × TerminalSet)}
    (halike : Alike m m' i i') (hq : m.states[i]? = some q) (hq' : m'.states[i']? = some q')
    (hreductions : q.reductions g m.arena = .ok reductions)
    (hreductions' : q'.reductions g' m'.arena = .ok reductions')
    (hmem : (p, lookahead) ∈ reductions) : (π p, lookahead) ∈ reductions' := by
  obtain ⟨_, heq, hspec⟩ := h.complete.reductions_spec h.wf hq
  obtain ⟨_, heq', hspec'⟩ := h.complete'.reductions_spec h.wf' hq'
  cases hreductions.symm.trans heq
  cases hreductions'.symm.trans heq'
  obtain ⟨n, right, k, item, hp, hk, hget, hdotted, rfl⟩ := (hspec p lookahead).mp hmem
  obtain ⟨k', item', hk', hget', hcore, hlookahead⟩ := h.exists_item halike
    (getElem?_sets_of_getElem? hq) (getElem?_sets_of_getElem? hq') hk hget
  refine (hspec' _ _).mpr ⟨n, right, k', item', h.renamed.expands_iff.mpr hp, hk', hget', ?_,
    hlookahead⟩
  rw [hcore, Core.dotted_rename, hdotted]
  rfl

/-! ## The bijection of the states -/

/-- The kernel is the same part of the items in both. -/
theorem kernel_has_rename_iff (h : Twins π g g' m m') (halike : Alike m m' i i')
    (hi : m.sets[i]? = some (K, I)) (hi' : m'.sets[i']? = some (K', I')) (x : Dotted) :
    K'.Has (x.rename π) ↔ K.Has x := by
  have haccept : π x.production = acceptProduction ↔ x.production = acceptProduction := by
    rw [← h.renamed.accept, π.apply_eq_iff_eq, h.renamed.accept]
  rw [h.complete.collection.kernel_has_iff h.wf hi, h.complete'.collection.kernel_has_iff h.wf' hi',
    h.has_rename_iff halike hi hi']
  exact and_congr_right fun _ => or_congr_right haccept

/-- A symbol leads to a state exactly if it leads to the one that stands for it. -/
theorem step?_eq_some_iff (h : Twins π g g' m m') (hσ : ∀ i < m.states.size, Alike m m' i (σ i))
    (hi : i < m.states.size) : m'.step? (σ i) X = some (σ j) ↔ m.step? i X = some j := by
  constructor
  · intro hstep
    obtain ⟨k, hstep', hk⟩ := h.symm.exists_step (hσ i hi).symm hstep
    have heq := h.alike_right_unique hk.symm (hσ k (h.lt_size_of_alike hk.symm))
    rwa [σ.injective heq]
  · intro hstep
    obtain ⟨k', hstep', hk'⟩ := h.exists_step (hσ i hi) hstep
    rwa [← h.alike_right_unique hk' (hσ j (h.lt_size_of_alike hk'))]

/-- The items are the same under other numbers, with the same lookaheads. -/
theorem exists_items (h : Twins π g g' m m') (halike : Alike m m' i i')
    (hi : m.sets[i]? = some (K, I)) (hi' : m'.sets[i']? = some (K', I')) : ∃ items items',
    I.items m.arena = .ok items ∧ I'.items m'.arena = .ok items' ∧ ∀ c lookahead,
      (∃ item ∈ items', item.core = c.rename π ∧ item.lookahead = lookahead) ↔
        ∃ item ∈ items, item.core = c ∧ item.lookahead = lookahead := by
  obtain ⟨items, hok, -, hmem⟩ := (h.complete.collection.closed hi).isOver.exists_items
  obtain ⟨items', hok', -, hmem'⟩ := (h.complete'.collection.closed hi').isOver.exists_items
  refine ⟨items, items', hok, hok', fun c lookahead => ⟨?_, ?_⟩⟩
  · rintro ⟨item', hitem', hcore, rfl⟩
    obtain ⟨k', hk', hget'⟩ := (hmem' item').mp hitem'
    obtain ⟨k, item, hk, hget, heq, hlookahead⟩ :=
      h.symm.exists_item halike.symm hi' hi hk' hget'
    refine ⟨item, (hmem item).mpr ⟨k, hk, hget⟩, ?_, hlookahead⟩
    rw [heq, hcore, Core.rename_symm_rename]
  · rintro ⟨item, hitem, rfl, rfl⟩
    obtain ⟨k, hk, hget⟩ := (hmem item).mp hitem
    obtain ⟨k', item', hk', hget', hcore, hlookahead⟩ := h.exists_item halike hi hi' hk hget
    exact ⟨item', (hmem' item').mpr ⟨k', hk', hget'⟩, hcore, hlookahead⟩

/-- So are the reductions. -/
theorem exists_reductions (h : Twins π g g' m m') (halike : Alike m m' i i')
    (hq : m.states[i]? = some q) (hq' : m'.states[i']? = some q') : ∃ reductions reductions',
    q.reductions g m.arena = .ok reductions ∧ q'.reductions g' m'.arena = .ok reductions' ∧
      ∀ p lookahead, (π p, lookahead) ∈ reductions' ↔ (p, lookahead) ∈ reductions := by
  obtain ⟨reductions, hok, -⟩ := h.complete.reductions_spec h.wf hq
  obtain ⟨reductions', hok', -⟩ := h.complete'.reductions_spec h.wf' hq'
  refine ⟨reductions, reductions', hok, hok', fun p lookahead => ⟨fun hmem => ?_, ?_⟩⟩
  · have hback := h.symm.mem_reductions halike.symm hq' hq hok' hok hmem
    rwa [π.symm_apply_apply] at hback
  · exact h.mem_reductions halike hq hq' hok hok'

/-- States that stand for each other have a string in common. -/
theorem sameState (h : Twins π g g' m m') (hσ : ∀ i < m.states.size, Alike m m' i (σ i))
    (hq : m.states[i]? = some q) (hq' : m'.states[σ i]? = some q') :
    SameState π σ g g' m.arena m'.arena q q' := by
  have hi := getElem?_sets_of_getElem? hq
  have hi' := getElem?_sets_of_getElem? hq'
  have hlt : i < m.states.size := (Array.getElem?_eq_some_iff.mp hq).choose
  have halike : Alike m m' i (σ i) := hσ i hlt
  constructor
  case kernel_iff =>
    intro c
    rw [← ItemSet.has_dotted_iff, ← ItemSet.has_dotted_iff, Core.dotted_rename,
      h.kernel_has_rename_iff halike hi hi']
  case items_iff =>
    intro c
    rw [← ItemSet.has_dotted_iff, ← ItemSet.has_dotted_iff, Core.dotted_rename,
      h.has_rename_iff halike hi hi']
  case transitions_iff =>
    intro X j
    have hgoes : (X, j) ∈ q.transitions.toList ↔ m.step? i X = some j := by
      rw [h.complete.step?_eq_some_iff]
      simp [Goes, hq]
    have hgoes' : (X, σ j) ∈ q'.transitions.toList ↔ m'.step? (σ i) X = some (σ j) := by
      rw [h.complete'.step?_eq_some_iff]
      simp [Goes, hq']
    rw [hgoes, hgoes', h.step?_eq_some_iff hσ hlt]
  case lookaheads_iff => exact h.exists_items halike hi hi'
  case reductions_iff => exact h.exists_reductions halike hq hq'

theorem size_eq (h : Twins π g g' m m') : m'.states.size = m.states.size := by
  rw [← h.complete.ncard_canonicalSets h.wf, ← h.complete'.ncard_canonicalSets h.wf',
    h.renamed.ncard_canonicalSets]

/-- **Twins are the same automaton under other numbers.** -/
theorem exists_renamed (h : Twins π g g' m m') : ∃ σ, Renamed π σ g g' m m' := by
  obtain ⟨σ, hlt, hσ⟩ := exists_perm_of_rel (n := m.states.size) (R := Alike m m')
    (fun i hi => h.size_eq ▸ h.exists_alike hi)
    (fun i _ j _ k hi hj => h.alike_left_unique hi hj)
  refine ⟨σ, ?_, fun i => ?_, fun i q hq => ?_⟩
  · have hstart : startState < m.states.size := by
      obtain ⟨K, I, hstart, -⟩ := h.complete.collection.start
      exact m.length_sets ▸ (List.getElem?_eq_some_iff.mp hstart).choose
    exact h.alike_right_unique (hσ startState hstart) ⟨[], rfl, rfl⟩
  · rw [h.size_eq]
    exact hlt i
  · have hi : i < m.states.size := (Array.getElem?_eq_some_iff.mp hq).choose
    have hi' : σ i < m'.states.size := h.size_eq ▸ (hlt i).mpr hi
    have hq' := Array.getElem?_eq_getElem hi'
    exact ⟨_, hq', h.sameState hσ hq hq'⟩

end Twins

/-- Building is the same under other numbers: the canonical collections have the same size, so no
limit lets only one of them pass. -/
theorem sameUpTo_build (wf : g.WellFormed) (wf' : g'.WellFormed) (h : Grammar.Renamed π g g')
    (limit : Option Nat) : SameUpTo π g g' (build g limit) (build g' limit) := by
  have hfails {g : Grammar} (wf : g.WellFormed) :
      (∃ m, build g limit = .ok m ∧ g.canonicalSets.ncard ≤ effectiveLimit limit) ∨
        build g limit = .error (.tooManyStates (effectiveLimit limit)) ∧
          effectiveLimit limit < g.canonicalSets.ncard := by
    rcases (build_failsOnly wf limit).exists_eq with ⟨m, hok⟩ | ⟨e, he, rfl, hexceeds⟩
    · have hsize := (isComplete_of_build wf hok).ncard_canonicalSets wf
      exact .inl ⟨m, hok, hsize ▸ size_le_of_build wf hok⟩
    · exact .inr ⟨he, hexceeds⟩
  have hcount := h.ncard_canonicalSets
  rcases hfails wf with ⟨m, hok, hle⟩ | ⟨herror, hlt⟩
  · rcases hfails wf' with ⟨m', hok', -⟩ | ⟨-, hlt'⟩
    · have htwins : Twins π g g' m m' :=
        ⟨wf, wf', h, isComplete_of_build wf hok, isComplete_of_build wf' hok'⟩
      obtain ⟨σ, hσ⟩ := htwins.exists_renamed
      rw [hok, hok']
      exact .ok σ hσ
    · omega
  · rcases hfails wf' with ⟨m', -, hle'⟩ | ⟨herror', -⟩
    · omega
    · rw [herror, herror']
      exact .error _

end Automaton

/-- **The order of the rules does not matter**: two definitions with the same symbols, the same
start symbol and the same rules in another order have the same productions under other numbers, and
under every limit the same outcome up to numbers. -/
theorem exists_sameUpTo_of_reordered {steps steps' : List Definition.Step} {g g' : Grammar}
    (h : Definition.Reordered steps steps') (hg : Grammar.define steps = .ok g)
    (hg' : Grammar.define steps' = .ok g') : ∃ π, Grammar.SameRules π g g' ∧
      ∀ limit, Automaton.SameUpTo π g g' (Automaton.build g limit) (Automaton.build g' limit) := by
  obtain ⟨π, hπ⟩ := exists_sameRules_of_reordered h hg hg'
  have wf := (IsDefined.of_define hg).wellFormed
  have wf' := (IsDefined.of_define hg').wellFormed
  have hstart : g.start = g'.start := by
    obtain ⟨rfl, -⟩ := Definition.eq_ofRules_of_define hg
    obtain ⟨rfl, -⟩ := Definition.eq_ofRules_of_define hg'
    exact h.start
  exact ⟨π, hπ, Automaton.sameUpTo_build wf wf' (hπ.renamed wf wf' hstart)⟩

/-- The rules of the assignments through pointers in the opposite order: the first one becomes the
last one, and the automata are the same. -/
theorem exists_sameUpTo_pointer : ∃ g g' m m' π σ,
    Definition.Reordered Examples.pointer Examples.pointerReversed ∧
    Grammar.define Examples.pointer = .ok g ∧ Grammar.define Examples.pointerReversed = .ok g' ∧
    Grammar.SameRules π g g' ∧ π 1 = 5 ∧ Automaton.build g none = .ok m ∧
    Automaton.build g' none = .ok m' ∧ Automaton.Renamed π σ g g' m m' := by
  have hreordered : Definition.Reordered Examples.pointer Examples.pointerReversed :=
    ⟨by decide, by decide, by decide, by decide⟩
  obtain ⟨g, m, hg, hm, hrule⟩ := exists_build_of_check Examples.pointer
    (fun g _ => g.rule? 1 == some ⟨1, #[.nonterminal 2, .terminal 1, .nonterminal 3]⟩)
    (by decide +kernel)
  obtain ⟨g', m', hg', hm', hrule'⟩ := exists_build_of_check Examples.pointerReversed
    (fun g _ => g.rule? 5 == some ⟨1, #[.nonterminal 2, .terminal 1, .nonterminal 3]⟩)
    (by decide +kernel)
  obtain ⟨π, hπ, hsame⟩ := exists_sameUpTo_of_reordered hreordered hg hg'
  have hnone := hsame none
  rw [hm, hm'] at hnone
  cases hnone with
  | ok σ hσ =>
    exact ⟨g, g', m, m', π, σ, hreordered, hg, hg', hπ,
      (hπ.unique 1 5 _ (eq_of_beq hrule) (eq_of_beq hrule')).symm, hm, hm', hσ⟩

end Lalr
