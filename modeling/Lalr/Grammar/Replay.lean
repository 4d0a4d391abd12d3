import Lalr.Grammar.Definition

/-!
# Definitions step by step

The steps of a definition as data, so that a whole definition is a list of them.

- `Definition.Step` and `Definition.Answer`: a step and what it answers.
- `Definition.replay`: a list of steps with all its answers, ended by the first failure or not.
- `Grammar.define`: the grammar that a list of steps defines, or the first failure.
-/

namespace Lalr

namespace Definition

/-- A step of a definition: it declares a symbol, adds a rule, chooses the start symbol or gives up
with a message. -/
inductive Step where
  | terminal (name : String)
  | nonterminal (name : String)
  | rule (left : NonterminalId) (right : Array Symbol)
  | start (id : NonterminalId)
  | giveUp (message : String)
deriving DecidableEq, Repr

/-- Whether the step gives up, which ends even a lenient definition. -/
def Step.givesUp : Step → Bool
  | .giveUp _ => true
  | _ => false

/-- The answer to a step that succeeds, with the number of the symbol or production that it
declares. -/
inductive Answer where
  | declared (id : Nat)
  | done
deriving DecidableEq, Repr

/-- Makes one step. -/
def apply : Step → Edit Answer
  | .terminal name => .declared <$> addTerminal name
  | .nonterminal name => .declared <$> addNonterminal name
  | .rule left right => .declared <$> addRule ⟨left, right⟩
  | .start id => do
    setStart id
    return .done
  | .giveUp message => throw (.other message)

/-- A definition that is being made: the answers to the steps so far, and what has been declared or
the failure that ended it. -/
structure Progress where
  answers : Array (Except Error Answer) := #[]
  outcome : Except Error Definition := .ok {}

/-- Makes one more step, unless a failure has ended the definition. A lenient definition goes on
after a step that fails, with what that step left, but not after one that gives up. -/
def Progress.step (lenient : Bool) (progress : Progress) (step : Step) : Progress :=
  match progress with
  | ⟨answers, .error e⟩ => ⟨answers, .error e⟩
  | ⟨answers, .ok d⟩ =>
    match (apply step).run d with
    | .ok answer d => ⟨answers.push (.ok answer), .ok d⟩
    | .error e d => ⟨answers.push (.error e), if lenient && !step.givesUp then .ok d else .error e⟩

/-- After a failure that ended the definition no step is made. -/
@[simp] theorem Progress.step_error {lenient : Bool} {answers : Array (Except Error Answer)}
    {e : Error} {step : Step} :
    Progress.step lenient ⟨answers, .error e⟩ step = ⟨answers, .error e⟩ := rfl

theorem Progress.foldl_step_error {lenient : Bool} {answers : Array (Except Error Answer)}
    {e : Error} (steps : List Step) :
    steps.foldl (Progress.step lenient) ⟨answers, .error e⟩ = ⟨answers, .error e⟩ := by
  induction steps with
  | nil => rfl
  | cons step steps ih => rw [List.foldl_cons, Progress.step_error, ih]

/-- A definition that has come to its end: the answers to the steps that were made, and the grammar
or the failure. -/
structure Replay where
  answers : Array (Except Error Answer)
  result : Except Error Grammar

/-- Makes the steps one by one and finishes the definition. -/
def replay (lenient : Bool) (steps : List Step) : Replay :=
  let progress := steps.foldl (Progress.step lenient) {}
  ⟨progress.answers, progress.outcome.bind finish⟩

end Definition

/-- The grammar that the steps define; the first step that fails ends the definition. -/
def Grammar.define (steps : List Definition.Step) : Except Definition.Error Grammar :=
  (Definition.replay false steps).result

end Lalr
