import Lalr.Grammar.Replay
import Lalr.Outcome

/-!
# Single steps of a definition

A step changes a definition in place, and it may fail on the way. Seen as a
whole it is a check followed by a change: `run_apply` says so for every kind of
step. All that a failing step does is to fail.

- `checkName_eq_ok_iff`, `checkRule_eq_ok_iff`, `checkStart_eq_ok_iff`: what the
  checks ask for.
- `checkStep`: why a step fails.
- `after`, `answerTo`: what a step that succeeds makes of the definition, and
  what it answers.
- `Progress.step_of_ok`, `Progress.step_of_error`: one more step of a replay.
-/

namespace Lalr

namespace Definition

variable {d d' : Definition} {step : Step} {answer : Answer} {e : Error}

/-! ## Checks -/

theorem checkName_eq_ok_iff {name : String} : d.checkName name = .ok () ↔
    Ident.isIdentifier name = true ∧ d.hasName name = false := by
  unfold checkName
  cases Ident.isIdentifier name <;> cases d.hasName name <;> simp

theorem checkRule_eq_ok_iff {rule : Rule} : d.checkRule rule = .ok () ↔
    d.hasNonterminal rule.left = true ∧ (∀ X ∈ rule.right, d.hasSymbol X = true) ∧
      rule ∉ d.rules := by
  have hfind : (rule.right.find? fun X => !d.hasSymbol X) = none ↔
      ∀ X ∈ rule.right, d.hasSymbol X = true := by simp
  unfold checkRule
  rw [← hfind]
  cases d.hasNonterminal rule.left with
  | false => simp
  | true =>
    cases rule.right.find? fun X => !d.hasSymbol X with
    | some X => simp
    | none => simp

theorem checkStart_eq_ok_iff {id : NonterminalId} :
    d.checkStart id = .ok () ↔ d.hasNonterminal id = true := by
  unfold checkStart
  split <;> simp_all

/-- A number is left that may be given out. -/
def checkRoom (id : Nat) : Except Error Unit :=
  if id < idLimit then .ok () else .error .tooManySymbols

theorem bind_checkRoom_eq_ok_iff {x : Except Error Unit} {id : Nat} :
    (x >>= fun _ => checkRoom id) = .ok () ↔ x = .ok () ∧ id < idLimit := by
  unfold checkRoom
  cases x with
  | error e => exact ⟨nofun, nofun⟩
  | ok u => by_cases hroom : id < idLimit <;> simp [hroom, bind, Except.bind]

/-- Why a step fails. That the numbers have run out is told last. -/
def checkStep (d : Definition) : Step → Except Error Unit
  | .terminal name => do d.checkName name; checkRoom d.nextTerminal
  | .nonterminal name => do d.checkName name; checkRoom d.nextNonterminal
  | .rule left right => do d.checkRule ⟨left, right⟩; checkRoom d.nextProduction
  | .start id => d.checkStart id
  | .giveUp message => .error (.other message)

/-! ## Changes -/

/-- The definition with one more step that succeeded. -/
def after (d : Definition) : Step → Definition
  | .terminal name =>
    { d with nextTerminal := d.nextTerminal + 1, terminals := d.terminals.push name }
  | .nonterminal name =>
    { d with nextNonterminal := d.nextNonterminal + 1, nonterminals := d.nonterminals.push name }
  | .rule left right =>
    { d with nextProduction := d.nextProduction + 1, rules := d.rules.push ⟨left, right⟩ }
  | .start id => { d with start := some id }
  | .giveUp _ => d

/-- The answer to a step that succeeds. -/
def answerTo (d : Definition) : Step → Answer
  | .terminal _ => .declared d.nextTerminal
  | .nonterminal _ => .declared d.nextNonterminal
  | .rule _ _ => .declared d.nextProduction
  | .start _ | .giveUp _ => .done

/-- A declaration, its two checks taken together. -/
theorem run_declare_answer {check : Definition → Except Error Unit} {next : Definition → Nat}
    {advance : Nat → Definition → Definition} {record : Definition → Definition} :
    (Answer.declared <$> declare check next advance record).run d =
      match (check d >>= fun _ => checkRoom (next d)) with
      | .ok () => .ok (.declared (next d)) (record (advance (next d + 1) d))
      | .error e => .error e d := by
  rw [map_eq_pure_bind, EStateM.run_bind, run_declare, checkRoom]
  cases check d with
  | error e => rfl
  | ok u => by_cases hroom : next d < idLimit <;> simp [hroom, bind, Except.bind]

/-- **Every step is a check followed by a change**; what fails has changed nothing. -/
theorem run_apply (d : Definition) (step : Step) :
    (apply step).run d = match d.checkStep step with
      | .ok () => .ok (d.answerTo step) (d.after step)
      | .error e => .error e d := by
  cases step with
  | terminal name => exact run_declare_answer
  | nonterminal name => exact run_declare_answer
  | rule left right => exact run_declare_answer
  | start id =>
    rw [apply, EStateM.run_bind, run_setStart, checkStep]
    cases d.checkStart id <;> rfl
  | giveUp message => rfl

theorem run_apply_eq_ok_iff : (apply step).run d = .ok answer d' ↔
    d.checkStep step = .ok () ∧ answer = d.answerTo step ∧ d' = d.after step := by
  rw [run_apply]
  cases d.checkStep step with
  | error e => exact ⟨nofun, nofun⟩
  | ok u =>
    simp only [EStateM.Result.ok.injEq, true_and]
    exact and_congr eq_comm eq_comm

namespace Progress

variable {lenient : Bool} {answers : Array (Except Error Answer)}

theorem step_of_ok (h : d.checkStep step = .ok ()) :
    Progress.step lenient ⟨answers, .ok d⟩ step =
      ⟨answers.push (.ok (d.answerTo step)), .ok (d.after step)⟩ := by
  have hrun : (apply step).run d = .ok (d.answerTo step) (d.after step) :=
    run_apply_eq_ok_iff.mpr ⟨h, rfl, rfl⟩
  simp only [Progress.step, hrun]

theorem step_of_error (h : d.checkStep step = .error e) :
    Progress.step lenient ⟨answers, .ok d⟩ step =
      ⟨answers.push (.error e), if lenient && !step.givesUp then .ok d else .error e⟩ := by
  have hrun : (apply step).run d = .error e d := by rw [run_apply, h]
  simp only [Progress.step, hrun]

end Progress

end Definition

end Lalr
