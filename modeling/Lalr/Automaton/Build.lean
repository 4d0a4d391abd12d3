import Lalr.Automaton.Basic
import Lalr.Item.Propagation
import Lalr.ItemSet.Closure
import Std.Data.TreeMap

/-!
# Building automata

States are found one by one from the start state. For each symbol after a marker of a state, the
items before that symbol are shifted; they make the kernel of the state after it. If a state with
that kernel is known, the shifted items are dropped again and their lookaheads flow on to the items
of the known kernel; if not, the kernel becomes a new state. When no state is left to expand, the
lookaheads are propagated.

- `Shifted.across`: the kernel after a symbol.
- `Draft.goto`: the state after a symbol, found or added.
- `Automaton.build`: the automaton of a grammar, with at most a given number of states.
-/

namespace Lalr

/-- Why an automaton cannot be built: there are more states than allowed, or some operation on items
has no answer. -/
inductive BuildError where
  | tooManyStates (limit : Nat)
  | fault (cause : Fault)
deriving DecidableEq, Repr

/-- The text of a failure, if it has one. -/
def BuildError.message? : BuildError → Option String
  | .tooManyStates limit =>
    some ("the number of states exceeds the limit (" ++ toString limit ++ ")")
  | .fault cause => cause.message?

/-- An operation on items as a part of building. -/
def orFault {α : Type} (x : Except Fault α) : Except BuildError α := x.mapError .fault

@[simp] theorem orFault_eq_ok_iff {α : Type} {x : Except Fault α} {a : α} :
    orFault x = .ok a ↔ x = .ok a := by
  cases x with
  | error cause => exact ⟨nofun, nofun⟩
  | ok b =>
    show Except.ok b = .ok a ↔ _
    rw [Except.ok.injEq, Except.ok.injEq]

/-- The number of states that 16 bits can tell apart. -/
def maxStates : Nat := 65536

/-- The number of states that are allowed under a limit, if there is one. -/
def effectiveLimit (limit : Option Nat) : Nat := min (limit.getD maxStates) maxStates

/-! ## Shifting -/

/-- The items of a state after they were shifted over a symbol: the kernel that the new items make,
their arena, and each shifted item with the item of the kernel that came from it. -/
structure Shifted where
  kernel : ItemSet
  arena : Arena
  moves : Array (ItemId × ItemId)

namespace Shifted

/-- Shifts one item if the symbol stands after its marker. -/
def move (g : Grammar) (symbol : Symbol) (shifted : Shifted) (source : ItemId) :
    Except Fault Shifted :=
  match shifted with
  | ⟨kernel, arena, moves⟩ => do
    let next ← (← arena.get source).core.next? g
    if next = some symbol then
      let (id, arena) ← arena.shift g source
      let ⟨target, _, kernel, arena⟩ ← kernel.add arena id
      return ⟨kernel, arena, moves.push (source, target)⟩
    else return ⟨kernel, arena, moves⟩

/-- Shifts the items before a symbol. -/
def across (g : Grammar) (symbol : Symbol) (ids : List ItemId) (a : Arena) : Except Fault Shifted :=
  ids.foldlM (move g symbol) ⟨.empty, a, #[]⟩

end Shifted

namespace Arena

/-- The symbols after the markers of items, in the order in which they are met. -/
def nextSymbols (g : Grammar) (a : Arena) (ids : List ItemId) : Except Fault (List Symbol) := do
  let next ← ids.mapM fun id => do (← a.get id).core.next? g
  return (next.filterMap id).eraseDups

/-- Lets the lookahead of each source flow on to its target. -/
def linkMany (a : Arena) (links : List (ItemId × ItemId)) : Except Fault Arena :=
  links.foldlM (fun a (source, target) => Prod.snd <$> a.link source target) a

/-- Lets the lookahead of each source flow on to the item of a kernel that has the given core. -/
def linkToKernel (a : Arena) (kernel : ItemSet) (links : List (ItemId × Core)) :
    Except Fault Arena :=
  a.linkMany (links.filterMap fun (source, core) => (kernel.find? core).map (source, ·))

end Arena

/-! ## States -/

/-- An automaton that is being built, with its states by the signatures of their kernels. -/
structure Draft where
  arena : Arena
  states : Array State
  known : Std.TreeMap (List Nat) StateId

namespace Draft

/-- The numbers of the items of a state. -/
def itemsOf (draft : Draft) (id : StateId) : Except Fault (List ItemId) :=
  match draft.states[id]? with
  | some state => .ok state.items.ids
  | none => .error (.unknownState id)

theorem itemsOf_eq_ok_iff {draft : Draft} {id : StateId} {ids : List ItemId} :
    draft.itemsOf id = .ok ids ↔ ∃ q, draft.states[id]? = some q ∧ q.items.ids = ids := by
  unfold itemsOf
  split <;> simp_all

/-- Adds a state with the given kernel. -/
def addState (g : Grammar) (limit : Nat) (draft : Draft) (kernel : ItemSet) :
    Except BuildError (StateId × Draft) :=
  match draft with
  | ⟨arena, states, known⟩ =>
    if limit ≤ states.size then .error (.tooManyStates limit)
    else do
      let (items, arena) ← orFault (kernel.closure g arena)
      let id := states.size
      let known := known.insert kernel.signature id
      return (id, ⟨arena, states.push ⟨kernel, items, #[]⟩, known⟩)

/-- Drops the shifted items from number `size` on, and lets the lookaheads of their sources flow on
to the kernel of a known state. -/
def meet (draft : Draft) (size : Nat) (moves : List (ItemId × ItemId)) (target : StateId) :
    Except Fault Draft :=
  match draft with
  | ⟨arena, states, known⟩ => do
    -- the cores have to be read before the items go
    let links ← moves.mapM fun (source, moved) => return (source, (← arena.get moved).core)
    match states[target]? with
    | some state =>
      let arena ← (arena.truncate size).linkToKernel state.kernel links
      return ⟨arena, states, known⟩
    | none => .error (.unknownState target)

/-- The state after the items `ids` and a symbol. -/
def goto (g : Grammar) (limit : Nat) (draft : Draft) (ids : List ItemId) (symbol : Symbol) :
    Except BuildError (StateId × Draft) :=
  match draft with
  | ⟨arena, states, known⟩ => do
    let size := arena.size
    let ⟨kernel, arena, moves⟩ ← orFault (Shifted.across g symbol ids arena)
    match known[kernel.signature]? with
    -- the kernel is known: only the links survive
    | some target =>
      let draft ← orFault (meet ⟨arena, states, known⟩ size moves.toList target)
      return (target, draft)
    -- the kernel is new: its items stay
    | none =>
      let arena ← orFault (arena.linkMany moves.toList)
      addState g limit ⟨arena, states, known⟩ kernel

/-- The draft with one more transition of a state; a state that is not there gets none. -/
def withTransition (draft : Draft) (id : StateId) (symbol : Symbol) (target : StateId) : Draft :=
  match draft with
  | ⟨arena, states, known⟩ =>
    let states := states.modify id fun q =>
      { q with transitions := q.transitions.push (symbol, target) }
    ⟨arena, states, known⟩

/-- Records a transition of a state. -/
def addTransition (draft : Draft) (id : StateId) (symbol : Symbol) (target : StateId) :
    Except Fault Draft :=
  if id < draft.states.size then .ok (draft.withTransition id symbol target)
  else .error (.unknownState id)

theorem addTransition_eq_ok_iff {draft next : Draft} {id target : StateId} {symbol : Symbol} :
    draft.addTransition id symbol target = .ok next ↔
      id < draft.states.size ∧ draft.withTransition id symbol target = next := by
  unfold addTransition
  split
  · next inside => simp [inside]
  · next outside => simp [outside]

/-- Finds the state after one symbol and records the transition to it. -/
def expandOver (g : Grammar) (limit : Nat) (id : StateId) (ids : List ItemId) (draft : Draft)
    (symbol : Symbol) : Except BuildError Draft := do
  let (target, draft) ← draft.goto g limit ids symbol
  orFault (draft.addTransition id symbol target)

theorem expandOver_eq_ok_iff {g : Grammar} {limit : Nat} {id : StateId} {ids : List ItemId}
    {draft next : Draft} {symbol : Symbol} :
    draft.expandOver g limit id ids symbol = .ok next ↔ ∃ target mid,
      draft.goto g limit ids symbol = .ok (target, mid) ∧ id < mid.states.size ∧
        mid.withTransition id symbol target = next := by
  unfold expandOver
  rw [bind_eq_ok_iff]
  simp only [Prod.exists, orFault_eq_ok_iff, addTransition_eq_ok_iff]

/-- Finds the states after all symbols that stand after a marker of a state. -/
def expand (g : Grammar) (limit : Nat) (draft : Draft) (id : StateId) :
    Except BuildError Draft := do
  let ids ← orFault (draft.itemsOf id)
  let symbols ← orFault (draft.arena.nextSymbols g ids)
  symbols.foldlM (expandOver g limit id ids) draft

/-- Expands the states from number `id` on. No more than `limit` of them are ever added, so the
first condition holds whenever the second one does; it shows that the work ends. -/
def expandFrom (g : Grammar) (limit : Nat) (id : StateId) (draft : Draft) :
    Except BuildError Draft :=
  if _bounds : id < limit ∧ id < draft.states.size then
    match draft.expand g limit id with
    | .error e => .error e
    | .ok draft => expandFrom g limit (id + 1) draft
  else .ok draft
termination_by limit - id
decreasing_by exact Nat.sub_lt_sub_left _bounds.1 (Nat.lt_succ_self id)

/-- The draft with the start state alone: its kernel is the start of the augmented grammar at the
end of the input. -/
def start (g : Grammar) (limit : Nat) : Except BuildError Draft := do
  let core : Core := ⟨acceptProduction, 0⟩
  let ⟨_, _, kernel, arena⟩ ← orFault (ItemSet.empty.addNew .empty core (.singleton endOfInput))
  let (_, draft) ← addState g limit ⟨arena, #[], ∅⟩ kernel
  return draft

end Draft

/-- The LALR(1) automaton of a grammar, unless it has more states than the limit allows. -/
def Automaton.build (g : Grammar) (limit : Option Nat) : Except BuildError Automaton := do
  let limit := effectiveLimit limit
  let draft ← Draft.start g limit
  let ⟨arena, states, _⟩ ← draft.expandFrom g limit startState
  let (_, arena) ← orFault arena.propagate
  return ⟨states, arena⟩

end Lalr
