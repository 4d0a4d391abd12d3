import Lalr.Grammar.Basic

/-!
# Grammars as text

Symbols are written by their names, the two reserved ones as `$eoi` and `$start`. A production reads
`E := E PLUS T`, with the sign for nothing in place of an empty right-hand side.
-/

namespace Lalr

/-- The written form of a terminal. -/
def Terminal.text (t : Terminal) : String := t.name.getD "$eoi"

/-- The written form of a nonterminal. -/
def Nonterminal.text (n : Nonterminal) : String := n.name.getD "$start"

namespace Grammar

/-- The written form of a symbol. -/
def symbolText (g : Grammar) : Symbol → Except Fault String
  | .terminal id => return (← g.terminal id).text
  | .nonterminal id => return (← g.nonterminal id).text

/-- The names of the members of a set in ascending order of their numbers, with blanks between
them. -/
def terminalSetText (g : Grammar) (set : TerminalSet) : Except Fault String := do
  let names ← set.toList.mapM fun id => g.symbolText (.terminal id)
  return " ".intercalate names

end Grammar

/-- The written form of a production. -/
def Production.text (g : Grammar) (p : Production) : Except Fault String := do
  let left ← g.nonterminal p.left
  let right ← p.right.toList.mapM g.symbolText
  return left.text ++ " := " ++ if right.isEmpty then "ε" else " ".intercalate right

namespace Grammar

/-- The line of a nonterminal in the listing of its grammar. -/
def nonterminalLine (g : Grammar) (id : NonterminalId) (n : Nonterminal) : String :=
  let start := if id = g.start then " (start)" else ""
  let nullable := if n.nullable then " (nullable)" else ""
  n.text ++ start ++ nullable ++ "\n"

/-- The listing of a grammar: its terminals, its nonterminals and its productions, one a line. -/
def text (g : Grammar) : Except Fault String := do
  let terminals := g.terminals.toList.map fun t => t.text ++ "\n"
  let nonterminals := g.nonterminals.toList.zipIdx.map fun (n, id) => g.nonterminalLine id n
  let productions ← g.productions.toList.mapM fun p => return (← p.text g) ++ "\n"
  return "## terminals:\n" ++ String.join terminals
    ++ "\n## nonterminals:\n" ++ String.join nonterminals
    ++ "\n## productions:\n" ++ String.join productions

end Grammar

end Lalr
