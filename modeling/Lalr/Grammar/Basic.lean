import Lalr.Fault

/-!
# Grammars

A `Grammar` is an augmented context-free grammar together with what is known of its nonterminals and
of the suffixes of its right-hand sides: whether they derive the empty string, and the terminals
that can come first in what they derive. Terminals, nonterminals and productions are stored at the
index that is their number.
-/

namespace Lalr

/-- A terminal symbol; the end of the input has no name. -/
structure Terminal where
  name : Option String
deriving DecidableEq, Repr

/-- A rule of a grammar: the nonterminal on the left is expanded to the symbols on the right. -/
structure Rule where
  left : NonterminalId
  right : Array Symbol
deriving DecidableEq, Repr

/-- What is known of a string of symbols: the terminals that come first in some string that it
derives, and whether it derives the empty string. -/
structure Suffix where
  first : TerminalSet
  nullable : Bool
deriving DecidableEq, Repr

/-- What is known of the empty string. -/
def Suffix.empty : Suffix := ⟨∅, true⟩

/-- A nonterminal symbol with the productions that expand it, in ascending order, and what is known
of it as a string. The start of the augmented grammar has no name. -/
structure Nonterminal where
  name : Option String
  productions : List ProductionId
  nullable : Bool
  first : TerminalSet
deriving DecidableEq, Repr

/-- A rule of a grammar with what is known of the suffixes of its right-hand side, from the whole of
it to the empty string. -/
structure Production extends Rule where
  suffixes : Array Suffix
deriving DecidableEq, Repr

namespace Production

/-- The symbol behind the first `dot` symbols of the right-hand side. -/
def symbolAt? (p : Production) (dot : Nat) : Option Symbol := p.right[dot]?

/-- What is known of the right-hand side without its first `pos` symbols; beyond the end that is the
empty string. -/
def suffix (p : Production) (pos : Nat) : Except Fault Suffix :=
  match p.suffixes[min pos p.right.size]? with
  | some known => .ok known
  | none => .error (.missingSuffix pos)

@[simp] theorem suffix_eq_ok_iff {p : Production} {pos : Nat} {known : Suffix} :
    p.suffix pos = .ok known ↔ p.suffixes[min pos p.right.size]? = some known := by
  unfold suffix
  split <;> simp_all

end Production

/-- An augmented context-free grammar. Terminal 0 is the end of the input, nonterminal 0 the start
of the augmented grammar, and production 0 expands it to the start symbol. -/
structure Grammar where
  terminals : Array Terminal
  nonterminals : Array Nonterminal
  productions : Array Production
  start : NonterminalId
deriving DecidableEq, Repr

namespace Grammar

/-- The terminal of a number. -/
def terminal (g : Grammar) (id : TerminalId) : Except Fault Terminal :=
  match g.terminals[id]? with
  | some t => .ok t
  | none => .error (.unknownTerminal id)

/-- The nonterminal of a number. -/
def nonterminal (g : Grammar) (id : NonterminalId) : Except Fault Nonterminal :=
  match g.nonterminals[id]? with
  | some n => .ok n
  | none => .error (.unknownNonterminal id)

/-- The production of a number. -/
def production (g : Grammar) (id : ProductionId) : Except Fault Production :=
  match g.productions[id]? with
  | some p => .ok p
  | none => .error (.unknownProduction id)

/-- The terminal of a name. -/
def terminalByName? (g : Grammar) (name : String) : Option TerminalId :=
  g.terminals.findIdx? fun t => t.name == some name

/-- The nonterminal of a name. -/
def nonterminalByName? (g : Grammar) (name : String) : Option NonterminalId :=
  g.nonterminals.findIdx? fun n => n.name == some name

/-! ## Look-ups -/

@[simp] theorem terminal_eq_ok_iff {g : Grammar} {id : TerminalId} {t : Terminal} :
    g.terminal id = .ok t ↔ g.terminals[id]? = some t := by
  unfold terminal
  split <;> simp_all

@[simp] theorem nonterminal_eq_ok_iff {g : Grammar} {id : NonterminalId} {n : Nonterminal} :
    g.nonterminal id = .ok n ↔ g.nonterminals[id]? = some n := by
  unfold nonterminal
  split <;> simp_all

@[simp] theorem production_eq_ok_iff {g : Grammar} {id : ProductionId} {p : Production} :
    g.production id = .ok p ↔ g.productions[id]? = some p := by
  unfold production
  split <;> simp_all

end Grammar

end Lalr
