import Lalr.Proofs.Automaton.Faultless

/-!
# The stages of a run

Building expands one state after the other, each over one symbol after the other.
What lies between two such steps is a stage of the run, also if the run fails
later.

- `Stage.Reached`: the stages to which building comes.
- `Stage.Reached.build_eq`: from each of them, what remains to be done gives what
  building gives.
- `Stage.exists_last`: a run that succeeds comes to a stage that has all states of
  the automaton.
- `Stage.Reached.exists_isAt`: the draft of a stage is sound, and the symbols still
  to come are after markers of the state that is expanded.
-/

namespace Lalr

open Grammar

variable {g : Grammar} {limit : Nat}

/-- A state is being expanded: what has been built, the state with the numbers of its items, and the
symbols over which it is still to be expanded. -/
structure Stage where
  draft : Draft
  id : StateId
  ids : List ItemId
  todo : List Symbol

/-- What becomes of a draft all of whose states are expanded. -/
def Draft.finish (draft : Draft) : Except BuildError Automaton :=
  match draft with
  | ⟨arena, states, _⟩ => do
    let (_, arena) ← orFault arena.propagate
    return ⟨states, arena⟩

namespace Stage

/-- The expansion of the state begins here: there is such a state, it is to be expanded, and all
symbols after the markers of its items are still to come. -/
structure Opens (g : Grammar) (limit : Nat) (s : Stage) : Prop where
  bounds : s.id < limit ∧ s.id < s.draft.states.size
  ids : s.draft.itemsOf s.id = .ok s.ids
  todo : s.draft.arena.nextSymbols g s.ids = .ok s.todo

/-- The stages to which building comes under a limit on the number of states: the start state is
expanded first, a state over one symbol after the other, and the next state when no symbol is left.
-/
inductive Reached (g : Grammar) (limit : Nat) : Stage → Prop where
  | first {draft : Draft} {ids : List ItemId} {todo : List Symbol}
      (hstart : Draft.start g limit = .ok draft)
      (hopens : Opens g limit ⟨draft, startState, ids, todo⟩) :
      Reached g limit ⟨draft, startState, ids, todo⟩
  | across {draft next : Draft} {id : StateId} {ids : List ItemId} {X : Symbol} {todo : List Symbol}
      (h : Reached g limit ⟨draft, id, ids, X :: todo⟩)
      (hexpand : draft.expandOver g limit id ids X = .ok next) :
      Reached g limit ⟨next, id, ids, todo⟩
  | next {draft : Draft} {id : StateId} {ids ids' : List ItemId} {todo : List Symbol}
      (h : Reached g limit ⟨draft, id, ids, []⟩)
      (hopens : Opens g limit ⟨draft, id + 1, ids', todo⟩) :
      Reached g limit ⟨draft, id + 1, ids', todo⟩

variable {draft next : Draft} {id : StateId} {ids : List ItemId} {todo : List Symbol}
variable {s : Stage} {m : Automaton}

/-! ## What remains to be done -/

/-- What remains to be done: the other symbols, the states after this one, and the lookaheads. -/
def rest (g : Grammar) (limit : Nat) (s : Stage) : Except BuildError Automaton := do
  let draft ← s.todo.foldlM (Draft.expandOver g limit s.id s.ids) s.draft
  let draft ← draft.expandFrom g limit (s.id + 1)
  draft.finish

/-- To expand the states from one on is to expand that one, and then the states after it. -/
theorem Opens.expandFrom_eq (h : Opens g limit s) : s.draft.expandFrom g limit s.id =
    s.todo.foldlM (Draft.expandOver g limit s.id s.ids) s.draft >>=
      fun draft => draft.expandFrom g limit (s.id + 1) := by
  have hexpand : s.draft.expand g limit s.id =
      s.todo.foldlM (Draft.expandOver g limit s.id s.ids) s.draft := by
    rw [Draft.expand, h.ids]
    show orFault (s.draft.arena.nextSymbols g s.ids) >>= _ = _
    rw [h.todo]
    rfl
  rw [Draft.expandFrom, dif_pos h.bounds, hexpand]
  cases s.todo.foldlM (Draft.expandOver g limit s.id s.ids) s.draft <;> rfl

theorem Opens.rest_eq (h : Opens g limit s) :
    s.rest g limit = s.draft.expandFrom g limit s.id >>= Draft.finish := by
  rw [h.expandFrom_eq, bind_assoc]
  rfl

/-- **What remains to be done at a stage gives what building gives.** -/
theorem Reached.build_eq {limit : Option Nat} (h : Reached g (effectiveLimit limit) s) :
    Automaton.build g limit = s.rest g (effectiveLimit limit) := by
  induction h with
  | first hstart hopens =>
    rw [hopens.rest_eq, Automaton.build, hstart]
    rfl
  | across _ hexpand ih =>
    rw [ih, rest, List.foldlM_cons, hexpand]
    rfl
  | next _ hopens ih =>
    rw [ih, hopens.rest_eq]
    rfl

/-! ## The last stage -/

/-- A state that is expanded over all symbols comes to a stage without any left. -/
theorem Reached.exhaust (h : Reached g limit ⟨draft, id, ids, todo⟩)
    (hexpand : todo.foldlM (Draft.expandOver g limit id ids) draft = .ok next) :
    Reached g limit ⟨next, id, ids, []⟩ := by
  induction todo generalizing draft with
  | nil =>
    cases foldlM_nil_eq_ok_iff.mp hexpand
    exact h
  | cons X todo ih =>
    obtain ⟨later, hover, hexpand⟩ := foldlM_cons_eq_ok_iff.mp hexpand
    exact ih (h.across hover) hexpand

/-- Where a state can be expanded, its expansion begins at a stage. -/
theorem exists_opens_of_expand (hbounds : id < limit ∧ id < draft.states.size)
    (hexpand : draft.expand g limit id = .ok next) : ∃ ids todo,
      Opens g limit ⟨draft, id, ids, todo⟩ ∧
        todo.foldlM (Draft.expandOver g limit id ids) draft = .ok next := by
  obtain ⟨ids, hids, hexpand⟩ := bind_eq_ok_iff.mp hexpand
  obtain ⟨todo, htodo, hexpand⟩ := bind_eq_ok_iff.mp hexpand
  exact ⟨ids, todo, ⟨hbounds, orFault_eq_ok_iff.mp hids, orFault_eq_ok_iff.mp htodo⟩, hexpand⟩

/-- When the states from one on can be expanded, there is a stage with the result. -/
theorem exists_of_expandFrom {n : StateId}
    (hopen : ∀ {ids todo}, Opens g limit ⟨draft, n, ids, todo⟩ →
      Reached g limit ⟨draft, n, ids, todo⟩)
    (hbounds : n < limit ∧ n < draft.states.size)
    (hexpand : draft.expandFrom g limit n = .ok next) :
    ∃ id ids, Reached g limit ⟨next, id, ids, []⟩ := by
  fun_induction Draft.expandFrom g limit n draft with
  | case1 => cases hexpand
  | case2 n draft _ later hlater ih =>
    obtain ⟨ids, todo, hopens, hfold⟩ := exists_opens_of_expand hbounds hlater
    have hlast := (hopen hopens).exhaust hfold
    by_cases hmore : n + 1 < limit ∧ n + 1 < later.states.size
    · exact ih (fun hopens => hlast.next hopens) hmore hexpand
    · rw [Draft.expandFrom, dif_neg hmore] at hexpand
      cases hexpand
      exact ⟨n, ids, hlast⟩
  | case3 _ _ hnone => exact absurd hbounds hnone

/-- **A run that succeeds comes to a stage where nothing is left to do but to propagate the
lookaheads.** -/
theorem exists_last (wf : g.WellFormed) {limit : Option Nat}
    (h : Automaton.build g limit = .ok m) : ∃ s, Reached g (effectiveLimit limit) s ∧
      s.todo = [] ∧ s.draft.states = m.states ∧
        ∃ grown, s.draft.arena.propagate = .ok (grown, m.arena) := by
  obtain ⟨first, hfirst, h⟩ := bind_eq_ok_iff.mp h
  obtain ⟨⟨arena, states, known⟩, hexpand, h⟩ := bind_eq_ok_iff.mp h
  obtain ⟨⟨grown, arena'⟩, hpropagate, h⟩ := bind_eq_ok_iff.mp h
  cases pure_eq_ok_iff.mp h
  have hsound := Draft.sound_start wf hfirst
  obtain ⟨kernel, items, hstart, -⟩ := hsound.collection.start
  have hsize : startState < first.automaton.sets.length :=
    (List.getElem?_eq_some_iff.mp hstart).choose
  have hlimit : startState < effectiveLimit limit := Nat.lt_of_lt_of_le hsize hsound.size_le
  rw [Automaton.length_sets] at hsize
  obtain ⟨id, ids, hreached⟩ :=
    exists_of_expandFrom (Reached.first hfirst) ⟨hlimit, hsize⟩ hexpand
  exact ⟨_, hreached, rfl, rfl, grown, orFault_eq_ok_iff.mp hpropagate⟩

/-! ## What holds at a stage -/

/-- The draft of a stage is sound when the state is expanded over the symbols `done`, and those
still to come are the others after its markers. -/
structure IsAt (g : Grammar) (limit : Nat) (s : Stage) (done : List Symbol)
    (kernel items : ItemSet) : Prop where
  sound : Draft.Sound g limit s.draft s.id done
  sets : s.draft.automaton.sets[s.id]? = some (kernel, items)
  ids : items.ids = s.ids
  nodup : (done ++ s.todo).Nodup
  mem_iff : ∀ X, X ∈ done ++ s.todo ↔ items.Awaits g X

theorem Opens.exists_isAt (h : Opens g limit s) (hsound : Draft.Sound g limit s.draft s.id []) :
    ∃ kernel items, IsAt g limit s [] kernel items := by
  obtain ⟨q, hq, hids⟩ := Draft.itemsOf_eq_ok_iff.mp h.ids
  have hset : s.draft.automaton.sets[s.id]? = some (q.kernel, q.items) :=
    Automaton.getElem?_sets_of_getElem? hq
  obtain ⟨hnodup, hmem⟩ :=
    Arena.nextSymbols_spec (hsound.collection.closed hset).isOver (hids ▸ h.todo)
  exact ⟨q.kernel, q.items, hsound, hset, hids, hnodup, hmem⟩

/-- The draft of every stage is sound. -/
theorem Reached.exists_isAt (wf : g.WellFormed) (hlimit : limit ≤ maxStates)
    (h : Reached g limit s) : ∃ done kernel items, IsAt g limit s done kernel items := by
  induction h with
  | first hstart hopens => exact ⟨[], hopens.exists_isAt (Draft.sound_start wf hstart)⟩
  | @across draft next id ids X todo _ hexpand ih =>
    obtain ⟨done, kernel, items, hat⟩ := ih
    obtain rfl : items.ids = ids := hat.ids
    obtain ⟨hsound, hset⟩ := hat.sound.expandOver_of_prefix wf hlimit hat.sets
      ⟨hat.nodup, hat.mem_iff⟩ ⟨todo, (List.append_cons ..).symm⟩ hexpand
    have hsame : done ++ X :: todo = (done ++ [X]) ++ todo := List.append_cons ..
    exact ⟨done ++ [X], kernel, items, hsound, hset, rfl, hsame ▸ hat.nodup, hsame ▸ hat.mem_iff⟩
  | next _ hopens ih =>
    obtain ⟨done, kernel, items, hat⟩ := ih
    have hdone (X : Symbol) : X ∈ done ↔ items.Awaits g X := by
      rw [← hat.mem_iff, List.append_nil]
    exact ⟨[], hopens.exists_isAt
      { hat.sound with collection := hat.sound.collection.next hat.sets hdone }⟩

end Stage

end Lalr
