import Lalr.Symbol

/-!
# Faults

An id or a handle is a plain number, so a caller can present one that names nothing. Operations that
look such a number up answer with a `Fault` instead of a value.
-/

namespace Lalr

/-- The number of an item in its arena. -/
abbrev ItemId := Nat

/-- The number of a state of an automaton. -/
abbrev StateId := Nat

/-- The written form of the number of an item. -/
def itemIdText (id : ItemId) : String := "I#" ++ numeral 3 id

/-- Why an operation on items, item sets or grammars has no answer: what it looks up is not there,
or the marker that it is to move stands at the end. In a foreign pair, one of two distinct items
that take part in a union is not in the arena. -/
inductive Fault where
  | unknownTerminal (id : TerminalId)
  | unknownNonterminal (id : NonterminalId)
  | unknownProduction (id : ProductionId)
  | missingSuffix (pos : Nat)
  | unknownState (id : StateId)
  | foreignItem (id : ItemId)
  | foreignPair
  | completedItem
deriving DecidableEq, Repr

/-- The text of a fault; a look-up in a grammar or an automaton that finds nothing has none. -/
def Fault.message? : Fault → Option String
  | unknownTerminal _ | unknownNonterminal _ | unknownProduction _ => none
  | missingSuffix _ | unknownState _ => none
  | foreignItem id => some (itemIdText id ++ " does not belong to this arena")
  | foreignPair => some "index condition not satisfied"
  | completedItem => some "cannot shift a completed item"

end Lalr
