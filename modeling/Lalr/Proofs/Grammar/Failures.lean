import Lalr.Grammar.Examples
import Lalr.Proofs.Grammar.Steps

/-!
# Steps that fail change nothing

A lenient definition goes on after a step that fails. The steps that fail might
as well not be there: without them the others have the same answers, and the
definition has the same result (`failuresChangeNothing`).

A single failing step leaves the definition as it was, whichever of its checks
it fails (`run_apply`). The rest is an induction over the steps
(`exists_foldl_step`).
-/

namespace Lalr

namespace Definition

/-- The steps whose answer is no failure. -/
def answered (steps : List Step) (answers : List (Except Error Answer)) : List Step :=
  ((steps.zip answers).filter fun made => made.2.isOk).map Prod.fst

/-- The steps that succeed in a definition that goes on after steps that fail. -/
def succeeding (steps : List Step) : List Step :=
  answered steps (replay true steps).answers.toList

@[simp] theorem answered_nil (answers : List (Except Error Answer)) :
    answered [] answers = [] := rfl

@[simp] theorem answered_cons_ok (step : Step) (steps : List Step) (answer : Answer)
    (answers : List (Except Error Answer)) :
    answered (step :: steps) (.ok answer :: answers) = step :: answered steps answers := rfl

@[simp] theorem answered_cons_error (step : Step) (steps : List Step) (e : Error)
    (answers : List (Except Error Answer)) :
    answered (step :: steps) (.error e :: answers) = answered steps answers := rfl

/-- Going on after failures, every step has an answer; the steps that succeed have the same answers
and come to the same definition alone. -/
theorem exists_foldl_step {steps : List Step} (h : ∀ step ∈ steps, step.givesUp = false)
    (d : Definition) : ∃ made d', made.length = steps.length ∧
      (∀ answers, steps.foldl (Progress.step true) ⟨answers, .ok d⟩ =
        ⟨answers ++ made.toArray, .ok d'⟩) ∧
      ∀ lenient answers, (answered steps made).foldl (Progress.step lenient) ⟨answers, .ok d⟩ =
        ⟨answers ++ (made.filter Except.isOk).toArray, .ok d'⟩ := by
  induction steps generalizing d with
  | nil => exact ⟨[], d, rfl, by simp, by simp⟩
  | cons step steps ih =>
    obtain ⟨hstep, hsteps⟩ := List.forall_mem_cons.mp h
    cases hcheck : d.checkStep step with
    | ok u =>
      obtain ⟨made, d', hlength, hall, hkept⟩ := ih hsteps (d.after step)
      refine ⟨.ok (d.answerTo step) :: made, d', congrArg Nat.succ hlength, ?_, ?_⟩
      · intro answers
        rw [List.foldl_cons, Progress.step_of_ok hcheck, hall]
        simp
      · intro lenient answers
        rw [answered_cons_ok, List.foldl_cons, Progress.step_of_ok hcheck, hkept,
          List.filter_cons_of_pos rfl]
        simp
    | error e =>
      -- the step leaves the definition as it was, so the others start where it started
      obtain ⟨made, d', hlength, hall, hkept⟩ := ih hsteps d
      refine ⟨.error e :: made, d', congrArg Nat.succ hlength, ?_, ?_⟩
      · intro answers
        rw [List.foldl_cons, Progress.step_of_error hcheck, hstep]
        simp [hall]
      · intro lenient answers
        rw [answered_cons_error, hkept, List.filter_cons_of_neg Bool.false_ne_true]

/-- What a definition is without the steps that fail in it: the others have the answers that they
have beside them, and the whole has the same result, the grammar or the failure. -/
structure FailuresChangeNothing (steps : List Step) : Prop where
  size_answers : (replay true steps).answers.size = steps.length
  answers_eq : ∀ lenient, (replay lenient (succeeding steps)).answers =
    (replay true steps).answers.filter Except.isOk
  result_eq : ∀ lenient, (replay lenient (succeeding steps)).result = (replay true steps).result

end Definition

/-- **Steps that fail change nothing**, in every sequence of steps none of which gives up. -/
theorem failuresChangeNothing {steps : List Definition.Step}
    (h : ∀ step ∈ steps, step.givesUp = false) : Definition.FailuresChangeNothing steps := by
  obtain ⟨made, d, hlength, hall, hkept⟩ := Definition.exists_foldl_step h {}
  have hreplay : Definition.replay true steps = ⟨made.toArray, d.finish⟩ := by
    simp [Definition.replay, hall, Except.bind]
  have hsucceeding (lenient : Bool) :
      Definition.replay lenient (Definition.succeeding steps) =
        ⟨(made.filter Except.isOk).toArray, d.finish⟩ := by
    rw [Definition.succeeding, hreplay]
    simp [Definition.replay, hkept, Except.bind]
  constructor
  case size_answers => rw [hreplay, List.size_toArray, hlength]
  case answers_eq =>
    intro lenient
    rw [hsucceeding, hreplay, List.filter_toArray]
  case result_eq =>
    intro lenient
    rw [hsucceeding, hreplay]

/-- Among these steps one fails each check that a step can fail. The rules and symbols behind them
have the numbers that they have without them. -/
theorem failuresChangeNothing_mistakes : (∀ step ∈ Examples.mistakes, step.givesUp = false) ∧
    Definition.succeeding Examples.mistakes =
      [.terminal "A", .nonterminal "S", .rule 1 #[.terminal 1], .terminal "B",
        .rule 1 #[.terminal 2, .nonterminal 1], .start 1] ∧
    (Definition.replay true Examples.mistakes).answers.toList.map Except.toOption =
      [some (.declared 1), none, none, some (.declared 1), none, none, some (.declared 1), none,
        none, none, some (.declared 2), none, some (.declared 2), some .done] ∧
    Definition.FailuresChangeNothing Examples.mistakes := by
  have hsteps : ∀ step ∈ Examples.mistakes, step.givesUp = false := by decide
  exact ⟨hsteps, by decide +kernel, by decide +kernel, failuresChangeNothing hsteps⟩

end Lalr
