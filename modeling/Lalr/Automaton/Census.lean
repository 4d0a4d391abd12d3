import Lalr.Automaton.Basic

/-!
# The size of an automaton

A `Census` counts what an automaton is made of.
-/

namespace Lalr

/-- The counts of what an automaton is made of. Items are counted in the arena, in the kernels and
in the states, terminals in all lookaheads; the propagations are the links between items. -/
structure Census where
  states : Nat
  arena : Nat
  kernelItems : Nat
  items : Nat
  transitions : Nat
  reductions : Nat
  lookaheads : Nat
  propagations : Nat
deriving DecidableEq, Repr

/-- What is counted for each member of a list, added up. -/
def total {α : Type} (count : α → Nat) (xs : List α) : Nat :=
  xs.foldr (fun x sum => count x + sum) 0

/-- Counts what an automaton is made of. -/
def Automaton.census (g : Grammar) (m : Automaton) : Except Fault Census := do
  let states := m.states.toList
  let items := m.arena.items.toList
  let reductions ← states.mapM fun q => q.reductions g m.arena
  return {
    states := states.length
    arena := items.length
    kernelItems := total (fun q => q.kernel.size) states
    items := total (fun q => q.items.size) states
    transitions := total (fun q => q.transitions.size) states
    reductions := total List.length reductions
    lookaheads := total (fun item => item.lookahead.size) items
    propagations := total (fun item => item.targets.size) items }

end Lalr
