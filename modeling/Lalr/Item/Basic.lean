import Lalr.Grammar.Text

/-!
# Items

An item is a production with a marker in its right-hand side, a set of lookahead terminals, and the
items to which its lookahead flows on. The production and the marker are its *core*; the core is
what identifies an item among others, the lookahead is not.
-/

namespace Lalr

/-- A production with a marker in its right-hand side. The symbols before the marker are counted in
16 bits. -/
structure Core where
  production : ProductionId
  dot : UInt16
deriving DecidableEq, Repr

namespace Core

/-- The core with the marker moved by one symbol; the greatest count is followed by zero. -/
def advance (c : Core) : Core := { c with dot := c.dot + 1 }

/-- The symbol after the marker. -/
def next? (g : Grammar) (c : Core) : Except Fault (Option Symbol) :=
  return (← g.production c.production).symbolAt? c.dot.toNat

/-- What is known of the symbols behind the one after the marker. -/
def rest (g : Grammar) (c : Core) : Except Fault Suffix := do
  (← g.production c.production).suffix (c.dot.toNat + 1)

/-- The production with a point for the marker, in square brackets. -/
def text (g : Grammar) (c : Core) : Except Fault String := do
  let production ← g.production c.production
  let left ← g.nonterminal production.left
  let right ← production.right.toList.mapM g.symbolText
  let dot := c.dot.toNat
  return left.text ++ " := " ++
    " ".intercalate (["["] ++ right.take dot ++ ["."] ++ right.drop dot ++ ["]"])

end Core

/-- An item: its core, the terminals that may follow, and the items to which its lookahead flows on,
in the order in which they were linked. -/
structure Item where
  core : Core
  lookahead : TerminalSet
  targets : Array ItemId
deriving DecidableEq, Repr

namespace Item

/-- The item with more terminals in its lookahead. -/
def extend (item : Item) (lookahead : TerminalSet) : Item :=
  { item with lookahead := item.lookahead ∪ lookahead }

/-- The item with one more target. -/
def linkTo (item : Item) (target : ItemId) : Item :=
  { item with targets := item.targets.push target }

/-- The terminals that may follow the symbol after the marker, when those of `lookahead` may follow
the whole production. -/
def firstOfRest (g : Grammar) (item : Item) (lookahead : TerminalSet) :
    Except Fault TerminalSet := do
  let rest ← item.core.rest g
  return if rest.nullable then rest.first ∪ lookahead else rest.first

/-- Whether what may follow the whole production may follow the symbol after the marker. -/
def isLookaheadVisible (g : Grammar) (item : Item) : Except Fault Bool :=
  return (← item.core.rest g).nullable

/-- Whether no symbol stands after the marker. -/
def isComplete (g : Grammar) (item : Item) : Except Fault Bool :=
  return (← item.core.next? g).isNone

/-- The nonterminal after the marker. -/
def nextNonterminal? (g : Grammar) (item : Item) : Except Fault (Option NonterminalId) :=
  return match ← item.core.next? g with
    | some (.nonterminal n) => some n
    | _ => none

/-- The core, followed by the lookahead in square brackets. -/
def text (g : Grammar) (item : Item) : Except Fault String := do
  let core ← item.core.text g
  let lookahead ← g.terminalSetText item.lookahead
  return core ++ "  [" ++ lookahead ++ "]"

end Item

end Lalr
