import Lalr.Grammar.Rules
import Lalr.Ident.Basic

/-!
# Defining a grammar

A grammar is defined by steps that declare terminals, nonterminals and rules and choose the start
symbol. Each step is checked when it is made. The checks of the whole come at the end.

- `Definition`: what has been declared so far, and which numbers come next.
- `Definition.Error`: why a step or the whole fails, and the text of that.
- `Definition.Edit`: an operation that changes a definition in place, one for each kind of step.
- `Definition.finish`: the checks of the whole, and the grammar.
-/

namespace Lalr

/-- What has been declared of a grammar: the names of the terminals and nonterminals and the rules,
each from number 1 on, the start symbol that was chosen last, and the numbers that come next. -/
structure Definition where
  terminals : Array String := #[]
  nonterminals : Array String := #[]
  rules : Array Rule := #[]
  start : Option NonterminalId := none
  nextTerminal : TerminalId := 1
  nextNonterminal : NonterminalId := 1
  nextProduction : ProductionId := 1
deriving DecidableEq, Repr

namespace Definition

/-! ## Failures -/

/-- Why a step or a whole definition fails. A duplicate production is told by its left side, missing
ones by the nonterminal that is used but never expanded; `other` has the message with which the
author of the definition gave up. -/
inductive Error where
  | invalidName (name : String)
  | duplicateName (name : String)
  | duplicateProduction (left : String)
  | unknownSymbol (symbol : Symbol)
  | missingProductions (name : String)
  | noNonterminals
  | tooManySymbols
  | other (message : String)
deriving DecidableEq, Repr

/-- The text of a failure. -/
def Error.message : Error → String
  | invalidName name => "incorrect symbol name: \x60" ++ name ++ "\x27"
  | duplicateName name => "the symbol \x60" ++ name ++ "\x27 has already been declared"
  | duplicateProduction left => "duplicate production rule detected for \x60" ++ left ++ "\x27"
  | unknownSymbol symbol => "the symbol " ++ symbol.idText ++ " is not declared in this grammar"
  | missingProductions name =>
    "the nonterminal \x60" ++ name ++ "\x27 is used but has no production rule"
  | noNonterminals => "empty nonterminal symbols"
  | tooManySymbols => "too many symbols or production rules"
  | other message => "Other error: " ++ message

/-! ## Checks -/

/-- The number that may not be given out any more: it is the greatest of 16 bits. -/
def idLimit : Nat := 65535

/-- Whether the number belongs to the end of the input or to a declared terminal. -/
def hasTerminal (d : Definition) (id : TerminalId) : Bool := id ≤ d.terminals.size

/-- Whether the number belongs to a declared nonterminal. -/
def hasNonterminal (d : Definition) (id : NonterminalId) : Bool :=
  0 < id && id ≤ d.nonterminals.size

/-- Whether a symbol may stand in a right-hand side. -/
def hasSymbol (d : Definition) : Symbol → Bool
  | .terminal id => d.hasTerminal id
  | .nonterminal id => d.hasNonterminal id

/-- The name of a declared nonterminal. -/
def nonterminalName (d : Definition) (id : NonterminalId) : String :=
  d.nonterminals[id - 1]?.getD ""

/-- Whether a terminal or a nonterminal has the name. -/
def hasName (d : Definition) (name : String) : Bool :=
  d.terminals.contains name || d.nonterminals.contains name

/-- A new name has to be an identifier that no terminal and no nonterminal has. -/
def checkName (d : Definition) (name : String) : Except Error Unit :=
  if !Ident.isIdentifier name then .error (.invalidName name)
  else if d.hasName name then .error (.duplicateName name)
  else .ok ()

/-- A new rule has declared symbols only, and differs from all earlier ones. -/
def checkRule (d : Definition) (rule : Rule) : Except Error Unit :=
  -- of several faults, that of the left side is told first, then those from left to right
  if !d.hasNonterminal rule.left then .error (.unknownSymbol (.nonterminal rule.left))
  else match rule.right.find? fun symbol => !d.hasSymbol symbol with
    | some symbol => .error (.unknownSymbol symbol)
    | none =>
      if d.rules.contains rule then .error (.duplicateProduction (d.nonterminalName rule.left))
      else .ok ()

/-- The chosen start symbol is a declared nonterminal. -/
def checkStart (d : Definition) (id : NonterminalId) : Except Error Unit :=
  if d.hasNonterminal id then .ok () else .error (.unknownSymbol (.nonterminal id))

/-! ## Single steps -/

/-- An operation on a definition. If it fails, what it has changed until then stays changed. -/
abbrev Edit (α : Type) := EStateM Error Definition α

/-- Goes on if a check of what has been declared succeeds. -/
def ensure (check : Definition → Except Error Unit) : Edit Unit := do
  MonadExcept.ofExcept (check (← get))

/-- The number after `id`, unless the numbers have run out. -/
def bump (id : Nat) : Edit Nat :=
  if id < idLimit then return id + 1 else throw .tooManySymbols

/-- Makes a declaration: it is checked, takes the number that comes next, and is recorded. -/
def declare (check : Definition → Except Error Unit) (next : Definition → Nat)
    (advance : Nat → Definition → Definition) (record : Definition → Definition) : Edit Nat := do
  ensure check
  let id := next (← get)
  let following ← bump id
  modify (advance following)
  modify record
  return id

/-- A check changes nothing. -/
theorem run_ensure (check : Definition → Except Error Unit) (d : Definition) :
    (ensure check).run d = match check d with
      | .ok () => .ok () d
      | .error e => .error e d := by
  cases h : check d <;> simp [ensure, MonadExcept.ofExcept, h]

/-- A declaration fails before it has changed anything, or else it is made. -/
theorem run_declare (check : Definition → Except Error Unit) (next : Definition → Nat)
    (advance : Nat → Definition → Definition) (record : Definition → Definition)
    (d : Definition) :
    (declare check next advance record).run d = match check d with
      | .ok () =>
        if next d < idLimit then .ok (next d) (record (advance (next d + 1) d))
        else .error .tooManySymbols d
      | .error e => .error e d := by
  rw [declare, EStateM.run_bind, run_ensure]
  cases check d with
  | error e => rfl
  | ok u =>
    by_cases room : next d < idLimit
    · simp only [EStateM.run_bind, EStateM.run_get, bump, room, if_true]
      rfl
    · simp only [EStateM.run_bind, EStateM.run_get, bump, room, if_false]
      rfl

/-- Declares a terminal. -/
def addTerminal (name : String) : Edit TerminalId :=
  declare (·.checkName name) nextTerminal (fun id d => { d with nextTerminal := id })
    fun d => { d with terminals := d.terminals.push name }

/-- Declares a nonterminal. -/
def addNonterminal (name : String) : Edit NonterminalId :=
  declare (·.checkName name) nextNonterminal (fun id d => { d with nextNonterminal := id })
    fun d => { d with nonterminals := d.nonterminals.push name }

/-- Adds a rule. -/
def addRule (rule : Rule) : Edit ProductionId :=
  declare (·.checkRule rule) nextProduction (fun id d => { d with nextProduction := id })
    fun d => { d with rules := d.rules.push rule }

/-- Chooses the start symbol. -/
def setStart (id : NonterminalId) : Edit Unit := do
  ensure (·.checkStart id)
  modify fun d => { d with start := some id }

theorem run_setStart (id : NonterminalId) (d : Definition) :
    (setStart id).run d = match d.checkStart id with
      | .ok () => .ok () { d with start := some id }
      | .error e => .error e d := by
  rw [setStart, EStateM.run_bind, run_ensure]
  cases d.checkStart id <;> rfl

/-! ## The whole -/

/-- The start symbol: the one chosen last, or else the first nonterminal. -/
def startSymbol (d : Definition) : Except Error NonterminalId :=
  match d.start with
  | some id => .ok id
  | none => if d.nonterminals.isEmpty then .error .noNonterminals else .ok 1

/-- The rules of the augmented grammar; the first one expands its start to the start symbol. -/
def augmentedRules (d : Definition) (start : NonterminalId) : List Rule :=
  ⟨startNonterminal, #[.nonterminal start]⟩ :: d.rules.toList

/-- The grammar that was declared. Every used nonterminal needs a rule; of several without one the
failure names the first. -/
def finish (d : Definition) : Except Error Grammar := do
  let start ← d.startSymbol
  let rules := d.augmentedRules start
  match (List.range (d.nonterminals.size + 1)).find? (lacksRules rules) with
  | some n => .error (.missingProductions (d.nonterminalName n))
  | none => .ok (.ofRules d.terminals d.nonterminals rules start)

end Definition

end Lalr
