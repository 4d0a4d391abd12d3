import Lalr.Grammar.Examples
import Lalr.Proofs.Grammar.Declared
import Mathlib.Data.Nat.Find

/-!
# The outcome of a definition

A definition succeeds exactly when what it declares is well-formed; then the
grammar is the one that was declared, and otherwise the first fault is told
(`outcomeIsExact_of_isShort`).

- `WellFormed`, `FirstFault`, `Describes`: when a sequence of steps defines a
  grammar, what is wrong with it otherwise, and which grammar it defines. They
  speak of the declarations alone.
- `exists_ofSteps_eq`, `outcome_ofSteps_of_first`: how far the steps are made.
- `finish_declared_eq_ok`, `finish_declared_eq_missing`: the checks of the whole.
-/

namespace Lalr

namespace Definition

variable {before after steps : List Step} {step : Step} {e : Error} {g : Grammar}
variable {n : NonterminalId}

/-! ## How far the steps are made -/

/-- A definition that ends at the first step that fails. -/
def Progress.ofSteps (steps : List Step) : Progress := steps.foldl (Progress.step false) {}

theorem Progress.ofSteps_concat (steps : List Step) (step : Step) :
    ofSteps (steps ++ [step]) = (ofSteps steps).step false step := by
  rw [ofSteps, List.foldl_append]
  rfl

theorem define_eq (steps : List Step) :
    Grammar.define steps = (Progress.ofSteps steps).outcome.bind finish := rfl

/-- The step passes its checks behind the steps before it. -/
def Passes (before : List Step) (step : Step) : Prop :=
  (declared before).checkStep step = .ok ()

/-- If all steps pass, each is answered with its number, and they make what they declare. -/
theorem exists_ofSteps_eq (h : Throughout Passes steps) : ∃ answers,
    Progress.ofSteps steps = ⟨answers, .ok (declared steps)⟩ ∧ answers.size = steps.length ∧
      Throughout (fun before step =>
        answers[before.length]? = some (.ok (answerAfter before step))) steps := by
  induction steps using List.reverseRecOn with
  | nil => exact ⟨#[], rfl, rfl, throughout_nil⟩
  | append_singleton steps step ih =>
    obtain ⟨hsteps, hpass⟩ := throughout_concat_iff.mp h
    obtain ⟨answers, hmade, hsize, hanswers⟩ := ih hsteps
    refine ⟨answers.push (.ok (answerAfter steps step)), ?_, by simp [hsize], ?_⟩
    · rw [Progress.ofSteps_concat, hmade, Progress.step_of_ok hpass, answerTo_declared,
        declared_concat]
    · refine throughout_concat_iff.mpr ⟨?_, ?_⟩
      · intro before other after heq
        have hlt : before.length < answers.size := by
          rw [hsize, heq]
          simp
        rw [Array.getElem?_push_lt hlt, ← Array.getElem?_eq_getElem hlt]
        exact hanswers before other after heq
      · rw [← hsize, Array.getElem?_push_size]

/-- The first step that does not pass ends the definition. -/
theorem outcome_ofSteps_of_first (hbefore : Throughout Passes before)
    (h : (declared before).checkStep step = .error e) (after : List Step) :
    (Progress.ofSteps (before ++ step :: after)).outcome = .error e := by
  obtain ⟨answers, hmade, -, -⟩ := exists_ofSteps_eq hbefore
  have hfold : Progress.ofSteps (before ++ step :: after) =
      after.foldl (Progress.step false) ((Progress.ofSteps before).step false step) := by
    rw [Progress.ofSteps, List.foldl_append, List.foldl_cons]
    rfl
  rw [hfold, hmade, Progress.step_of_error h, Bool.false_and, if_neg Bool.false_ne_true,
    Progress.foldl_step_error]

theorem define_eq_finish (h : Throughout Passes steps) :
    Grammar.define steps = (declared steps).finish := by
  obtain ⟨answers, hmade, -⟩ := exists_ofSteps_eq h
  rw [define_eq, hmade]
  rfl

/-- A definition that succeeds has made all steps. -/
theorem finish_declared_of_define (h : Grammar.define steps = .ok g) :
    Throughout Passes steps ∧ (declared steps).finish = .ok g := by
  rcases throughout_or_first Passes steps with hall | ⟨before, step, after, rfl, hbefore, hfails⟩
  · exact ⟨hall, define_eq_finish hall ▸ h⟩
  · cases hcheck : (declared before).checkStep step with
    | ok u => exact absurd hcheck hfails
    | error e =>
      rw [define_eq, outcome_ofSteps_of_first hbefore hcheck] at h
      cases h

theorem checked_declared (h : Throughout Passes steps) : (declared steps).Checked := by
  induction steps using List.reverseRecOn with
  | nil => exact checked_empty
  | append_singleton steps step ih =>
    obtain ⟨hsteps, hpass⟩ := throughout_concat_iff.mp h
    exact declared_concat steps step ▸ (ih hsteps).after hpass

/-- A definition that has come so far, whether or not it went on after failures, is what some steps
declare that all pass. -/
theorem exists_declared_of_outcome {lenient : Bool} {d : Definition}
    (h : (steps.foldl (Progress.step lenient) {}).outcome = .ok d) :
    ∃ kept, Throughout Passes kept ∧ declared kept = d := by
  induction steps using List.reverseRecOn generalizing d with
  | nil =>
    cases h
    exact ⟨[], throughout_nil, rfl⟩
  | append_singleton steps step ih =>
    rw [List.foldl_append, List.foldl_cons, List.foldl_nil] at h
    generalize steps.foldl (Progress.step lenient) {} = made at h ih
    obtain ⟨answers, outcome⟩ := made
    cases outcome with
    | error e => cases h
    | ok before =>
      obtain ⟨kept, hkept, rfl⟩ := ih rfl
      cases hcheck : (declared kept).checkStep step with
      | ok u =>
        rw [Progress.step_of_ok hcheck] at h
        cases h
        exact ⟨kept ++ [step], throughout_concat_iff.mpr ⟨hkept, hcheck⟩, declared_concat kept step⟩
      | error e =>
        rw [Progress.step_of_error hcheck] at h
        dsimp only at h
        split at h
        · cases h
          exact ⟨kept, hkept, rfl⟩
        · cases h

/-! ## Well-formed definitions -/

/-- The nonterminal is the start symbol or stands in a right-hand side. -/
def Uses (steps : List Step) (n : NonterminalId) : Prop :=
  n = startOf steps ∨ ∃ rule ∈ declaredRules steps, .nonterminal n ∈ rule.right

/-- Some rule expands the nonterminal. -/
def HasRule (steps : List Step) (n : NonterminalId) : Prop :=
  ∃ rule ∈ declaredRules steps, rule.left = n

/-- When the steps define a grammar: every step is admissible behind the steps before it, there is a
nonterminal, and every nonterminal that is used has a rule. -/
structure WellFormed (steps : List Step) : Prop where
  admissible : Throughout Admissible steps
  nonempty : nonterminalNames steps ≠ []
  hasRule : ∀ n, Uses steps n → HasRule steps n

/-- The first thing that is wrong with the steps: a step is faulty behind admissible ones, or there
is no nonterminal, or one is used and has no rule; of several the one with the least number is told.
-/
inductive FirstFault (steps : List Step) : Error → Prop where
  | step {before after : List Step} {step : Step} {e : Error}
      (hsteps : steps = before ++ step :: after) (hbefore : Throughout Admissible before)
      (h : Faulty before step e) : FirstFault steps e
  | noNonterminals (hall : Throughout Admissible steps) (h : nonterminalNames steps = []) :
    FirstFault steps .noNonterminals
  | missingProductions {n : NonterminalId} {name : String} (hall : Throughout Admissible steps)
      (hnonempty : nonterminalNames steps ≠ []) (hused : Uses steps n) (hnone : ¬HasRule steps n)
      (hleast : ∀ m < n, Uses steps m → HasRule steps m)
      (hname : (nonterminalNames steps)[n - 1]? = some name) :
    FirstFault steps (.missingProductions name)

/-- The grammar is the one that the steps declare. The declared terminals, nonterminals and rules
come in their order, behind the end of the input, the start of the augmented grammar and its
production. A nonterminal lists the productions that expand it, in ascending order, and what the
tables say of it and of the suffixes of right-hand sides is exact. -/
structure Describes (steps : List Step) (g : Grammar) : Prop where
  terminals : g.terminals.toList.map Terminal.name = none :: (terminalNames steps).map some
  nonterminals : g.nonterminals.toList.map Nonterminal.name =
    none :: (nonterminalNames steps).map some
  productions : g.productions.toList.map Production.toRule =
    ⟨startNonterminal, #[.nonterminal (startOf steps)]⟩ :: declaredRules steps
  start : g.start = startOf steps
  listed : ∀ (n : NonterminalId) nonterminal, g.nonterminals[n]? = some nonterminal →
    nonterminal.productions.Pairwise (· < ·) ∧
      ∀ p, p ∈ nonterminal.productions ↔
        ∃ production, g.productions[p]? = some production ∧ production.left = n
  tables : ∀ (n : NonterminalId) nonterminal, g.nonterminals[n]? = some nonterminal →
    (nonterminal.nullable = true ↔ g.Nullable [.nonterminal n]) ∧
      ∀ t, t ∈ nonterminal.first ↔ g.First [.nonterminal n] t
  suffixes : ∀ (p : ProductionId) production, g.productions[p]? = some production →
    production.suffixes.size = production.right.size + 1 ∧
      ∀ pos, ∃ known, production.suffix pos = .ok known ∧
        (known.nullable = true ↔ g.Nullable (production.right.toList.drop pos)) ∧
        ∀ t, t ∈ known.first ↔ g.First (production.right.toList.drop pos) t

/-! ## The checks of the whole -/

theorem lacksRules_declared_iff (hn : n ≠ startNonterminal) :
    lacksRules ((declared steps).augmentedRules (startOf steps)) n ↔
      Uses steps n ∧ ¬HasRule steps n := by
  rw [lacksRules_iff, and_comm]
  refine and_congr ?_ ?_
  · simp [augmentedRules, declared, Uses]
  · simp [augmentedRules, declared, HasRule, hn.symm]

/-- Production 0 expands the start of the augmented grammar. -/
theorem lacksRules_declared_start :
    lacksRules ((declared steps).augmentedRules (startOf steps)) startNonterminal = false := by
  rw [Bool.eq_false_iff, ne_eq, lacksRules_iff]
  exact fun h => h.1 _ List.mem_cons_self rfl

theorem startSymbol_declared (hchecked : (declared steps).Checked) :
    (declared steps).startSymbol = if nonterminalNames steps = [] then .error .noNonterminals
      else .ok (startOf steps) := by
  have hstart : (declared steps).start = chosenStart steps := rfl
  unfold startSymbol startOf
  rw [hstart]
  cases hchosen : chosenStart steps with
  | some id =>
    have hid := hasNonterminal_declared_iff.mp (hchecked.start id hchosen)
    have hnonempty : nonterminalNames steps ≠ [] :=
      List.ne_nil_of_length_pos (Nat.lt_of_lt_of_le (Nat.pos_of_ne_zero hid.1) hid.2)
    rw [if_neg hnonempty]
    rfl
  | none => simp [declared]

/-- Every nonterminal that is used is declared. -/
theorem declares_of_uses (hchecked : (declared steps).Checked)
    (hnonempty : nonterminalNames steps ≠ []) (h : Uses steps n) :
    Declares steps (.nonterminal n) := by
  rw [← hasNonterminal_declared_iff]
  rcases h with rfl | ⟨rule, hmem, hn⟩
  · refine hchecked.startSymbol ?_
    rw [startSymbol_declared hchecked, if_neg hnonempty]
  · exact hchecked.right rule (mem_rules_declared_iff.mpr hmem) _ hn

theorem finish_declared_eq_ok (hchecked : (declared steps).Checked)
    (hnonempty : nonterminalNames steps ≠ []) (h : ∀ n, Uses steps n → HasRule steps n) :
    (declared steps).finish = .ok (.ofRules (declared steps).terminals (declared steps).nonterminals
      ((declared steps).augmentedRules (startOf steps)) (startOf steps)) := by
  have hfind : (List.range ((declared steps).nonterminals.size + 1)).find?
      (lacksRules ((declared steps).augmentedRules (startOf steps))) = none := by
    refine List.find?_eq_none.mpr fun n _ hlacks => ?_
    by_cases hn : n = startNonterminal
    · rw [hn, lacksRules_declared_start] at hlacks
      cases hlacks
    · obtain ⟨hused, hnone⟩ := (lacksRules_declared_iff hn).mp hlacks
      exact hnone (h n hused)
  rw [finish, startSymbol_declared hchecked, if_neg hnonempty]
  simp only [bind, Except.bind, hfind]

theorem finish_declared_eq_missing {name : String} (hchecked : (declared steps).Checked)
    (hnonempty : nonterminalNames steps ≠ []) (hused : Uses steps n) (hnone : ¬HasRule steps n)
    (hleast : ∀ m < n, Uses steps m → HasRule steps m)
    (hname : (nonterminalNames steps)[n - 1]? = some name) :
    (declared steps).finish = .error (.missingProductions name) := by
  have hn := declares_of_uses hchecked hnonempty hused
  have hfind : (List.range ((declared steps).nonterminals.size + 1)).find?
      (lacksRules ((declared steps).augmentedRules (startOf steps))) = some n := by
    refine List.find?_range_eq_some.mpr
      ⟨(lacksRules_declared_iff hn.1).mpr ⟨hused, hnone⟩, ?_, fun m hm => ?_⟩
    · exact List.mem_range.mpr (Nat.lt_succ_of_le (by simpa [declared] using hn.2))
    · by_cases hzero : m = startNonterminal
      · rw [hzero, lacksRules_declared_start]
        rfl
      · rw [Bool.not_eq_true', Bool.eq_false_iff, ne_eq, lacksRules_declared_iff hzero]
        rintro ⟨husedm, hnonem⟩
        exact hnonem (hleast m hm husedm)
  rw [finish, startSymbol_declared hchecked, if_neg hnonempty]
  simp only [bind, Except.bind, hfind, nonterminalName_declared hname]

/-- The checks of the whole find what is wrong with it. -/
theorem hasRule_or_missing (hchecked : (declared steps).Checked)
    (hall : Throughout Admissible steps) (hnonempty : nonterminalNames steps ≠ []) :
    (∀ n, Uses steps n → HasRule steps n) ∨
      ∃ name, FirstFault steps (.missingProductions name) := by
  classical
  by_cases h : ∃ n, Uses steps n ∧ ¬HasRule steps n
  · obtain ⟨hused, hnone⟩ := Nat.find_spec h
    obtain ⟨name, hname⟩ := exists_name_of_declares (declares_of_uses hchecked hnonempty hused)
    refine .inr ⟨name, .missingProductions hall hnonempty hused hnone (fun m hm husedm => ?_) hname⟩
    exact not_not.mp fun hnonem => Nat.find_min h hm ⟨husedm, hnonem⟩
  · exact .inl fun n hused => not_not.mp fun hnone => h ⟨n, hused, hnone⟩

/-! ## The grammar -/

/-- A definition that is finished has the rules that were declared, and they passed all checks. -/
theorem eq_ofRules_of_finish (hchecked : (declared steps).Checked)
    (h : (declared steps).finish = .ok g) :
    g = .ofRules (declared steps).terminals (declared steps).nonterminals
        ((declared steps).augmentedRules (startOf steps)) (startOf steps) ∧
      Grammar.AugmentedRules ((declared steps).augmentedRules (startOf steps)) (startOf steps)
        ((declared steps).nonterminals.size + 1) := by
  obtain ⟨start, hstart, hlacks, rfl⟩ := finish_eq_ok h
  have haugmented := hchecked.augmentedRules hstart hlacks
  rw [startSymbol_declared hchecked] at hstart
  split at hstart
  · cases hstart
  · cases hstart
    exact ⟨rfl, haugmented⟩

theorem eq_ofRules_of_define (h : Grammar.define steps = .ok g) :
    g = .ofRules (declared steps).terminals (declared steps).nonterminals
        ((declared steps).augmentedRules (startOf steps)) (startOf steps) ∧
      Grammar.AugmentedRules ((declared steps).augmentedRules (startOf steps)) (startOf steps)
        ((declared steps).nonterminals.size + 1) := by
  obtain ⟨hpasses, hfinish⟩ := finish_declared_of_define h
  exact eq_ofRules_of_finish (checked_declared hpasses) hfinish

/-- A definition that is finished defines the grammar that was declared. -/
theorem describes_of_finish (hchecked : (declared steps).Checked)
    (h : (declared steps).finish = .ok g) : Describes steps g := by
  obtain ⟨rfl, haugmented⟩ := eq_ofRules_of_finish hchecked h
  constructor
  case terminals => simp [Grammar.ofRules, declared, Function.comp_def]
  case nonterminals => exact Grammar.names_nonterminals_ofRules
  case productions => simp [Grammar.ofRules, augmentedRules, declared, Function.comp_def]
  case start => rfl
  case listed =>
    intro n nonterminal hn
    rw [Grammar.productions_of_ofRules hn]
    refine ⟨pairwise_rulesOf _ n, fun p => mem_rulesOf.trans ?_⟩
    simp [Grammar.ofRules]
  case tables => exact fun n nonterminal hn => Grammar.tables_ofRules haugmented.left_lt hn
  case suffixes =>
    intro p production hp
    refine ⟨?_, fun pos => ?_⟩
    · simp only [Grammar.ofRules, List.getElem?_toArray, List.getElem?_map,
        Option.map_eq_some_iff] at hp
      obtain ⟨rule, -, rfl⟩ := hp
      simp [Grammar.length_suffixes]
    · obtain ⟨known, hknown, hexact⟩ := Grammar.exists_suffix_ofRules haugmented.left_lt hp pos
      exact ⟨known, hknown, hexact.nullable_iff, hexact.mem_first_iff⟩

/-! ## The outcome -/

/-- Of each kind of declaration there are so few that the numbers do not run out. -/
structure IsShort (steps : List Step) : Prop where
  terminals : (terminalNames steps).length < idLimit
  nonterminals : (nonterminalNames steps).length < idLimit
  rules : (declaredRules steps).length < idLimit

theorem IsShort.hasRoom (h : IsShort steps) : Throughout HasRoom steps := by
  have hlt {α : Type} (f : Step → Option α) {before after : List Step} {step : Step} {a : α}
      (hf : f step = some a) (hshort : ((before ++ step :: after).filterMap f).length < idLimit) :
      (before.filterMap f).length + 1 < idLimit := by
    refine Nat.lt_of_le_of_lt ?_ hshort
    simp [hf]
  rintro before step after rfl
  cases step with
  | terminal name => exact hlt Step.terminalName? rfl h.terminals
  | nonterminal name => exact hlt Step.nonterminalName? rfl h.nonterminals
  | rule left right => exact hlt Step.rule? rfl h.rules
  | start id => trivial
  | giveUp message => trivial

theorem IsShort.of_append {more : List Step} (h : IsShort (steps ++ more)) : IsShort steps := by
  have hle {α : Type} (f : Step → Option α) :
      (steps.filterMap f).length ≤ ((steps ++ more).filterMap f).length := by simp
  exact ⟨Nat.lt_of_le_of_lt (hle _) h.terminals, Nat.lt_of_le_of_lt (hle _) h.nonterminals,
    Nat.lt_of_le_of_lt (hle _) h.rules⟩

theorem IsShort.passes (h : IsShort steps) (hall : Throughout Admissible steps) :
    Throughout Passes steps := fun before step after hsteps =>
  checkStep_declared_eq_ok_iff.mpr
    ⟨hall before step after hsteps, h.hasRoom before step after hsteps⟩

theorem throughout_admissible_of_passes (h : Throughout Passes steps) :
    Throughout Admissible steps :=
  h.mono fun _ _ hpass => (checkStep_declared_eq_ok_iff.mp hpass).1

/-- Well-formed steps define a grammar. -/
theorem WellFormed.exists_define (hshort : IsShort steps) (h : WellFormed steps) :
    ∃ g, Grammar.define steps = .ok g := by
  have hpasses := hshort.passes h.admissible
  have hfinish := finish_declared_eq_ok (checked_declared hpasses) h.nonempty h.hasRule
  exact ⟨_, (define_eq_finish hpasses).trans hfinish⟩

/-- Other steps do not, and their first fault is told. -/
theorem FirstFault.define_eq_error (hshort : IsShort steps) (h : FirstFault steps e) :
    Grammar.define steps = .error e := by
  cases h with
  | @step before after step e hsteps hbefore h =>
    subst hsteps
    rw [define_eq, outcome_ofSteps_of_first (hshort.of_append.passes hbefore)
      (checkStep_declared_of_faulty h)]
    rfl
  | noNonterminals hall h =>
    have hpasses := hshort.passes hall
    rw [define_eq_finish hpasses, finish, startSymbol_declared (checked_declared hpasses), if_pos h]
    rfl
  | missingProductions hall hnonempty hused hnone hleast hname =>
    have hpasses := hshort.passes hall
    rw [define_eq_finish hpasses]
    exact finish_declared_eq_missing (checked_declared hpasses) hnonempty hused hnone hleast hname

/-- The steps are well-formed, or there is a first thing that is wrong with them. -/
theorem wellFormed_or_firstFault (hshort : IsShort steps) :
    WellFormed steps ∨ ∃ e, FirstFault steps e := by
  rcases throughout_or_first Admissible steps with
    hall | ⟨before, step, after, hsteps, hbefore, hnot⟩
  · by_cases hnil : nonterminalNames steps = []
    · exact .inr ⟨_, .noNonterminals hall hnil⟩
    · have hchecked := checked_declared (hshort.passes hall)
      rcases hasRule_or_missing hchecked hall hnil with hrule | ⟨name, hmissing⟩
      · exact .inl ⟨hall, hnil, hrule⟩
      · exact .inr ⟨_, hmissing⟩
  · obtain ⟨e, h⟩ := (admissible_or_faulty before step).resolve_left hnot
    exact .inr ⟨e, .step hsteps hbefore h⟩

/-- The outcome of a definition, by what the steps declare: there is a grammar exactly when they are
well-formed, and it is the one that they declare; otherwise the failure is their first fault. In a
grammar each step is answered with the number after those of its kind before it. -/
structure OutcomeIsExact (steps : List Step) : Prop where
  exists_iff : (∃ g, Grammar.define steps = .ok g) ↔ WellFormed steps
  error_iff : ∀ e, Grammar.define steps = .error e ↔ FirstFault steps e
  describes : ∀ g, Grammar.define steps = .ok g → Describes steps g
  answers : ∀ g, Grammar.define steps = .ok g → Throughout (fun before step =>
    (replay false steps).answers[before.length]? = some (.ok (answerAfter before step))) steps

end Definition

/-- Every defined grammar is the one that some steps declare that all pass. -/
theorem Grammar.IsDefined.exists_describes {g : Grammar} (h : g.IsDefined) :
    ∃ steps, Definition.Throughout Definition.Passes steps ∧ Definition.Describes steps g := by
  obtain ⟨lenient, steps, h⟩ := h
  obtain ⟨d, houtcome, hfinish⟩ := bind_eq_ok_iff.mp h
  obtain ⟨kept, hpasses, rfl⟩ := Definition.exists_declared_of_outcome houtcome
  have hchecked := Definition.checked_declared hpasses
  exact ⟨kept, hpasses, Definition.describes_of_finish hchecked hfinish⟩

/-- **The outcome of a definition is exact**: well-formed steps define the grammar that they
declare, and of others the first fault is told. -/
theorem outcomeIsExact_of_isShort {steps : List Definition.Step} (h : Definition.IsShort steps) :
    Definition.OutcomeIsExact steps := by
  have hcases := Definition.wellFormed_or_firstFault h
  constructor
  case exists_iff =>
    refine ⟨fun ⟨g, hg⟩ => ?_, fun hwf => hwf.exists_define h⟩
    rcases hcases with hwf | ⟨e, hfault⟩
    · exact hwf
    · exact absurd (hg.symm.trans (hfault.define_eq_error h)) nofun
  case error_iff =>
    refine fun e => ⟨fun he => ?_, fun hfault => hfault.define_eq_error h⟩
    rcases hcases with hwf | ⟨e', hfault⟩
    · obtain ⟨g, hg⟩ := hwf.exists_define h
      exact absurd (hg.symm.trans he) nofun
    · cases (hfault.define_eq_error h).symm.trans he
      exact hfault
  case describes =>
    intro g hg
    obtain ⟨hpasses, hfinish⟩ := Definition.finish_declared_of_define hg
    exact Definition.describes_of_finish (Definition.checked_declared hpasses) hfinish
  case answers =>
    intro g hg
    obtain ⟨hpasses, -⟩ := Definition.finish_declared_of_define hg
    obtain ⟨answers, hmade, -, hanswers⟩ := Definition.exists_ofSteps_eq hpasses
    have hreplay : (Definition.replay false steps).answers = answers :=
      congrArg Definition.Progress.answers hmade
    rw [hreplay]
    exact hanswers

/-- The assignments through pointers are well-formed; of the mistakes the first is told, the second
declaration of `A`. -/
theorem outcomeIsExact_examples :
    (Definition.IsShort Examples.pointer ∧ Definition.WellFormed Examples.pointer) ∧
      Definition.IsShort Examples.mistakes ∧
        Grammar.define Examples.mistakes = .error (.duplicateName "A") := by
  have hpointer : Definition.IsShort Examples.pointer := ⟨by decide, by decide, by decide⟩
  have hmistakes : Definition.IsShort Examples.mistakes := ⟨by decide, by decide, by decide⟩
  have hdefine : ∃ g, Grammar.define Examples.pointer = .ok g := by
    have hok : (Grammar.define Examples.pointer).isOk = true := by decide +kernel
    cases h : Grammar.define Examples.pointer with
    | ok g => exact ⟨g, rfl⟩
    | error e => rw [h] at hok; cases hok
  have hfirst : Definition.FirstFault Examples.mistakes (.duplicateName "A") := by
    have hbefore : Definition.Throughout Definition.Admissible ([] ++ [.terminal "A"]) :=
      Definition.throughout_concat_iff.mpr
        ⟨Definition.throughout_nil, by decide, List.not_mem_nil, List.not_mem_nil⟩
    exact .step rfl hbefore (.terminal (.duplicate (by decide) (.inl List.mem_cons_self)))
  exact ⟨⟨hpointer, (outcomeIsExact_of_isShort hpointer).exists_iff.mp hdefine⟩, hmistakes,
    ((outcomeIsExact_of_isShort hmistakes).error_iff _).mpr hfirst⟩

end Lalr
