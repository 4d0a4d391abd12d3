import Lalr.BitSet

/-!
# Symbols and their ids

Terminals, nonterminals and productions are known by numbers, counted up in the order of
declaration. Number 0 of each kind is reserved: terminal 0 stands for the end of the input,
nonterminal 0 is the start of the augmented grammar, and production 0 expands it to the start
symbol.

- `numeral`: decimal numerals with a least width, in which the numbers of states and items are
  written.
-/

namespace Lalr

/-- The number of a terminal. -/
abbrev TerminalId := Nat

/-- The number of a nonterminal. -/
abbrev NonterminalId := Nat

/-- The number of a production. -/
abbrev ProductionId := Nat

/-- A set of terminals, by their numbers. -/
abbrev TerminalSet := BitSet

/-- The terminal that stands for the end of the input. -/
def endOfInput : TerminalId := 0

/-- The start of the augmented grammar. -/
def startNonterminal : NonterminalId := 0

/-- The production that expands the start of the augmented grammar to the start symbol. -/
def acceptProduction : ProductionId := 0

/-- A symbol of a grammar. -/
inductive Symbol where
  | terminal (id : TerminalId)
  | nonterminal (id : NonterminalId)
deriving DecidableEq, Repr, Inhabited

/-! ## Texts -/

/-- The decimal digits of `n`, filled up with zeros on the left to at least `width` digits, so that
small numbers line up. -/
def numeral (width n : Nat) : String :=
  let digits := Nat.toDigits 10 n
  String.ofList (List.replicate (width - digits.length) '0' ++ digits)

example : numeral 3 7 = "007" := by decide +kernel

example : numeral 2 1234 = "1234" := by decide +kernel

/-- The number of a terminal with its type, for messages. -/
def terminalIdText (id : TerminalId) : String := "TerminalID \x7b raw: " ++ toString id ++ " \x7d"

/-- The number of a nonterminal with its type, for messages. -/
def nonterminalIdText (id : NonterminalId) : String :=
  "NonterminalID \x7b raw: " ++ toString id ++ " \x7d"

/-- The symbol by kind and number, for messages about symbols that have no name. -/
def Symbol.idText : Symbol → String
  | terminal id => "T(" ++ terminalIdText id ++ ")"
  | nonterminal id => "N(" ++ nonterminalIdText id ++ ")"

/-- The numbers of the members in ascending order, for messages. -/
def terminalSetText (set : TerminalSet) : String :=
  "\x7b" ++ ", ".intercalate (set.toList.map terminalIdText) ++ "\x7d"

end Lalr
