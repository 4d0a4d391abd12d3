import Lalr.ItemSet.Basic

/-!
# LALR(1) automata

A state of the automaton is an item set with its transitions. The kernel, which identifies the
state, is the part of the set that came in by a transition; the other items follow from it by
closure. A state reduces the productions whose marker has come to the end, each on the terminals of
its lookahead.

- `State.reductions`: what a state reduces.
- `Automaton.walk`: the states on a path from the start state.
- `Automaton.text`: the listing of an automaton. It has a section for each state, with the items,
  the transitions and the reductions, one a line. An empty line stands between two sections.
-/

namespace Lalr

/-- The written form of the number of a state. -/
def stateIdText (id : StateId) : String := "S#" ++ numeral 3 id

/-- The number of the start state. -/
def startState : StateId := 0

/-- A state of an automaton: its kernel, which identifies it, the closure of the kernel, and the
transitions in the order in which their symbols were met. -/
structure State where
  kernel : ItemSet
  items : ItemSet
  transitions : Array (Symbol × StateId)
deriving DecidableEq, Repr

namespace State

/-- The state after a symbol. -/
def transition? (q : State) (symbol : Symbol) : Option StateId :=
  (q.transitions.find? fun transition => transition.1 == symbol).map Prod.snd

/-- The productions that the state reduces, each with the terminals on which it does so. -/
def reductions (g : Grammar) (q : State) (a : Arena) :
    Except Fault (List (ProductionId × TerminalSet)) := do
  let complete ← (← q.items.items a).filterM fun item => item.isComplete g
  return complete.map fun item => (item.core.production, item.lookahead)

end State

/-- An LALR(1) automaton: its states, each at the index that is its number, and the arena of their
items. -/
structure Automaton where
  states : Array State
  arena : Arena
deriving DecidableEq, Repr

namespace Automaton

/-- The state after a state and a symbol. -/
def step? (m : Automaton) (id : StateId) (symbol : Symbol) : Option StateId :=
  m.states[id]?.bind fun q => q.transition? symbol

/-- The states that are passed when the symbols are read one by one; `none` comes last if there is
no transition for one of them. -/
def walkFrom (m : Automaton) (id : StateId) : List Symbol → List (Option StateId)
  | [] => []
  | symbol :: symbols =>
    match m.step? id symbol with
    | none => [none]
    | some next => some next :: m.walkFrom next symbols

/-- The states that are passed from the start state on. -/
def walk (m : Automaton) (symbols : List Symbol) : List (Option StateId) :=
  m.walkFrom startState symbols

end Automaton

/-! ## Texts -/

/-- The section of a state. -/
def State.text (g : Grammar) (a : Arena) (id : StateId) (q : State) : Except Fault String := do
  let items ← (← q.items.items a).mapM fun item => return "- " ++ (← item.text g) ++ "\n"
  let transitions ← q.transitions.toList.mapM fun (symbol, target) =>
    return "- " ++ (← g.symbolText symbol) ++ " => " ++ numeral 2 target ++ "\n"
  let reductions ← (← q.reductions g a).mapM fun (id, lookahead) => do
    let production ← (← g.production id).text g
    return "- " ++ production ++ " on [" ++ (← g.terminalSetText lookahead) ++ "]\n"
  return "#### State " ++ numeral 2 id ++ "\n## items\n" ++ String.join items
    ++ "## transitions\n" ++ String.join transitions ++ "## reductions\n" ++ String.join reductions

/-- The listing of an automaton. -/
def Automaton.text (g : Grammar) (m : Automaton) : Except Fault String := do
  let sections ← m.states.toList.zipIdx.mapM fun (q, id) => q.text g m.arena id
  return "\n".intercalate sections

end Lalr
