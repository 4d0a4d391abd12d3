import Lalr.ItemSet.Basic
import Lalr.Outcome
import Lalr.Saturation

/-!
# Closure of item sets

The closure of an item set adds, for every nonterminal after a marker, an item for each of its
productions, with the marker at the beginning and with the terminals that may follow the nonterminal
as lookahead. When nothing need follow the nonterminal, the lookahead of the item flows on to those
items, and a link says so.

The items that have to be looked at wait on a stack. Every item is looked at once, so the work ends:
an item gets on the stack only when its core was missing from the set.
-/

namespace Lalr

/-- The state of a closure: the items found so far, their arena, and those that have to be looked
at, the next one first. -/
structure Closing where
  set : ItemSet
  arena : Arena
  work : List ItemId

/-- Puts an item on a stack of items, if it is to wait there; its core is looked up for that. -/
def Arena.stackIf (a : Arena) (wanted : Bool) (id : ItemId) (work : List ItemId) :
    Except Fault (List ItemId) :=
  if wanted then (fun _ => id :: work) <$> a.get id else .ok work

theorem Arena.eq_of_stackIf {a : Arena} {wanted : Bool} {id : ItemId} {work later : List ItemId}
    (h : a.stackIf wanted id work = .ok later) : later = if wanted then id :: work else work := by
  cases wanted with
  | false =>
    cases h
    rfl
  | true =>
    obtain ⟨item, -, rfl⟩ := map_eq_ok_iff.1 h
    rfl

namespace Closing

/-- Takes in the item of a production with the marker at the beginning, linked from `source` if the
lookahead of `source` is visible. -/
def predict (source : ItemId) (isVisible : Bool) (lookahead : TerminalSet) (state : Closing)
    (production : ProductionId) : Except Fault Closing :=
  match state with
  | ⟨set, arena, work⟩ => do
    let ⟨added, isNew, set, arena⟩ ← set.addNew arena ⟨production, 0⟩ lookahead
    let arena ← arena.linkIf isVisible source added
    let work ← arena.stackIf isNew added work
    return ⟨set, arena, work⟩

/-- Looks at one item. -/
def expand (g : Grammar) (id : ItemId) (state : Closing) : Except Fault Closing := do
  let item ← state.arena.get id
  match ← item.nextNonterminal? g with
  | none => return state
  | some n =>
    let lookahead ← item.firstOfRest g item.lookahead
    let isVisible ← item.isLookaheadVisible g
    (← g.nonterminal n).productions.foldlM (predict id isVisible lookahead) state

/-! ## The work ends -/

/-- The number of productions whose item with the marker at the beginning is not in the set, each
counted for every nonterminal that lists it. -/
def missing (g : Grammar) (s : ItemSet) : Nat :=
  (g.nonterminals.toList.flatMap Nonterminal.productions).countP fun p => !s.contains ⟨p, 0⟩

/-- What becomes of the set and the stack when a production is taken in: they stay as they are, or
its core was missing and comes in, and one item more has to be looked at. -/
def TakesIn (production : ProductionId) (before after : Closing) : Prop :=
  after.set = before.set ∧ after.work = before.work
    ∨ before.set.contains ⟨production, 0⟩ = false
      ∧ (∃ id, after.set = before.set.push ⟨production, 0⟩ id)
      ∧ after.work.length = before.work.length + 1

/-- The parts of taking in a production. -/
theorem exists_of_predict {source : ItemId} {isVisible : Bool} {lookahead : TerminalSet}
    {state next : Closing} {production : ProductionId}
    (h : state.predict source isVisible lookahead production = .ok next) : ∃ placed linked,
      state.set.addNew state.arena ⟨production, 0⟩ lookahead = .ok placed ∧
      placed.arena.linkIf isVisible source placed.id = .ok linked ∧
      next = ⟨placed.set, linked,
        if placed.isNew then placed.id :: state.work else state.work⟩ := by
  obtain ⟨set, arena, work⟩ := state
  obtain ⟨placed, added, h⟩ := bind_eq_ok_iff.1 h
  obtain ⟨linked, link, h⟩ := bind_eq_ok_iff.1 h
  obtain ⟨later, stacked, h⟩ := bind_eq_ok_iff.1 h
  cases pure_eq_ok_iff.1 h
  exact ⟨placed, linked, added, link, by rw [Arena.eq_of_stackIf stacked]⟩

theorem predict_takesIn {source : ItemId} {isVisible : Bool} {lookahead : TerminalSet}
    {state next : Closing} {production : ProductionId}
    (h : state.predict source isVisible lookahead production = .ok next) :
    TakesIn production state next := by
  obtain ⟨placed, linked, added, _, rfl⟩ := exists_of_predict h
  unfold ItemSet.addNew at added
  split at added
  · obtain ⟨_, _, added⟩ := bind_eq_ok_iff.1 added
    cases added
    exact .inl ⟨rfl, rfl⟩
  · next absent =>
    cases added
    exact .inr ⟨ItemSet.find?_eq_none_iff.1 absent, ⟨_, rfl⟩, rfl⟩

theorem missing_push {g : Grammar} {s : ItemSet} {p : ProductionId} {n : Nonterminal}
    (known : n ∈ g.nonterminals) (listed : p ∈ n.productions) (absent : s.contains ⟨p, 0⟩ = false)
    (id : ItemId) : missing g (s.push ⟨p, 0⟩ id) < missing g s := by
  refine countP_lt_countP (x := p) (fun q _ k => ?_) ?_ ?_ ?_
  · rw [ItemSet.contains_push] at k
    grind
  · exact List.mem_flatMap.2 ⟨n, Array.mem_toList_iff.2 known, listed⟩
  · simp [ItemSet.contains_push]
  · simp [absent]

/-- Productions that are taken in add no more work than there were productions missing. -/
theorem foldlM_le {g : Grammar} {n : Nonterminal}
    {step : Closing → ProductionId → Except Fault Closing} {state next : Closing}
    (takesIn : ∀ {before after p}, step before p = .ok after → TakesIn p before after)
    (known : n ∈ g.nonterminals) (h : n.productions.foldlM step state = .ok next) :
    missing g next.set + next.work.length ≤ missing g state.set + state.work.length := by
  let bounded (later : Closing) : Prop :=
    missing g later.set + later.work.length ≤ missing g state.set + state.work.length
  have kept : ∀ p ∈ n.productions, ∀ before after, bounded before →
      step before p = .ok after → bounded after := by
    intro p listed before after bound step
    rcases takesIn step with ⟨set, work⟩ | ⟨absent, ⟨added, set⟩, work⟩
    -- the core was there: nothing more to look at
    · simp only [bounded, set, work]
      exact bound
    -- one more item to look at, but one production fewer is missing
    · have := missing_push known listed absent added
      simp only [bounded, set, work] at bound ⊢
      omega
  exact foldlM_induction (P := bounded) h (Nat.le_refl _) kept

/-- So does looking at an item. -/
theorem expand_le {g : Grammar} {id : ItemId} {state next : Closing}
    (h : state.expand g id = .ok next) :
    missing g next.set + next.work.length ≤ missing g state.set + state.work.length := by
  obtain ⟨item, _, h⟩ := bind_eq_ok_iff.1 h
  obtain ⟨after, _, h⟩ := bind_eq_ok_iff.1 h
  cases after with
  | none =>
    cases h
    exact Nat.le_refl _
  | some n =>
    obtain ⟨lookahead, _, h⟩ := bind_eq_ok_iff.1 h
    obtain ⟨isVisible, _, h⟩ := bind_eq_ok_iff.1 h
    obtain ⟨nonterminal, found, h⟩ := bind_eq_ok_iff.1 h
    exact foldlM_le predict_takesIn
      (Array.mem_of_getElem? (Grammar.nonterminal_eq_ok_iff.1 found)) h

/-- Looks at the items on the stack until it is empty. -/
def run (g : Grammar) (state : Closing) : Except Fault (ItemSet × Arena) :=
  match state with
  | ⟨set, arena, []⟩ => .ok (set, arena)
  | ⟨set, arena, id :: work⟩ =>
    match _expanded : expand g id ⟨set, arena, work⟩ with
    | .error e => .error e
    | .ok next => run g next
termination_by missing g state.set + state.work.length
decreasing_by exact Nat.lt_of_le_of_lt (expand_le _expanded) (Nat.lt_succ_self _)

end Closing

/-- The closure of an item set. The items that came in last are looked at first. -/
def ItemSet.closure (g : Grammar) (s : ItemSet) (a : Arena) : Except Fault (ItemSet × Arena) :=
  Closing.run g ⟨⟨s.members, none⟩, a, s.ids.reverse⟩

end Lalr
