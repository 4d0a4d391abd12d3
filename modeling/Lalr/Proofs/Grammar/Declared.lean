import Lalr.Proofs.Grammar.Defined
import Mathlib.Data.List.Induction

/-!
# What a sequence of steps declares

The steps of a definition, read as declarations, without the definition that they
make.

- `terminalNames`, `nonterminalNames`, `declaredRules`, `chosenStart`: what the
  steps declare, each kind in its order.
- `Admissible`: a step may stand behind others. `Faulty`: it may not, and why.
- `Throughout`: something holds of every step and the steps before it.
- `declared`: the definition that a sequence of admissible steps makes. It checks
  a further step for admissibility (`checkStep_declared_eq_ok_iff`,
  `checkStep_declared_of_faulty`).
-/

namespace Lalr

namespace Definition

variable {before steps : List Step} {step : Step} {e : Error}

/-! ## Declarations -/

/-- The name of the terminal that a step declares. -/
def Step.terminalName? : Step → Option String
  | .terminal name => some name
  | _ => none

/-- The name of the nonterminal that a step declares. -/
def Step.nonterminalName? : Step → Option String
  | .nonterminal name => some name
  | _ => none

/-- The rule that a step adds. -/
def Step.rule? : Step → Option Rule
  | .rule left right => some ⟨left, right⟩
  | _ => none

/-- The start symbol that a step chooses. -/
def Step.start? : Step → Option NonterminalId
  | .start id => some id
  | _ => none

/-- The names of the terminals, from number 1 on. -/
def terminalNames (steps : List Step) : List String := steps.filterMap Step.terminalName?

/-- The names of the nonterminals, from number 1 on. -/
def nonterminalNames (steps : List Step) : List String := steps.filterMap Step.nonterminalName?

/-- The rules, from production 1 on. -/
def declaredRules (steps : List Step) : List Rule := steps.filterMap Step.rule?

/-- The start symbol that was chosen last. -/
def chosenStart (steps : List Step) : Option NonterminalId := (steps.filterMap Step.start?).getLast?

/-- The start symbol: the one chosen last, or else the first nonterminal. -/
def startOf (steps : List Step) : NonterminalId := (chosenStart steps).getD 1

/-- The steps declare the symbol, or it is the end of the input. -/
def Declares (steps : List Step) : Symbol → Prop
  | .terminal t => t = endOfInput ∨ t ≤ (terminalNames steps).length
  | .nonterminal n => n ≠ startNonterminal ∧ n ≤ (nonterminalNames steps).length

/-! ## Steps behind others -/

/-- The name is an identifier that no symbol declared before has. -/
def IsNewName (before : List Step) (name : String) : Prop :=
  Ident.isIdentifier name = true ∧ name ∉ terminalNames before ∧ name ∉ nonterminalNames before

/-- The step may stand behind the steps before it. -/
def Admissible (before : List Step) : Step → Prop
  | .terminal name => IsNewName before name
  | .nonterminal name => IsNewName before name
  | .rule left right => Declares before (.nonterminal left) ∧ (∀ X ∈ right, Declares before X) ∧
    ⟨left, right⟩ ∉ declaredRules before
  | .start id => Declares before (.nonterminal id)
  | .giveUp _ => False

theorem exists_name_of_declares {n : NonterminalId} (h : Declares before (.nonterminal n)) :
    ∃ name, (nonterminalNames before)[n - 1]? = some name :=
  ⟨_, List.getElem?_eq_getElem (Nat.sub_one_lt_of_le (Nat.pos_of_ne_zero h.1) h.2)⟩

/-- What is wrong with a name: it is no identifier, or a symbol declared before has it. -/
inductive FaultyName (before : List Step) (name : String) : Error → Prop where
  | invalid (h : Ident.isIdentifier name = false) : FaultyName before name (.invalidName name)
  | duplicate (h : Ident.isIdentifier name = true)
      (hmem : name ∈ terminalNames before ∨ name ∈ nonterminalNames before) :
    FaultyName before name (.duplicateName name)

/-- What is wrong with a rule: its left side is not declared, or else a symbol of its right-hand
side is not, of which the first is told, or else it is there already. -/
inductive FaultyRule (before : List Step) (rule : Rule) : Error → Prop where
  | left (h : ¬Declares before (.nonterminal rule.left)) :
    FaultyRule before rule (.unknownSymbol (.nonterminal rule.left))
  | right {pre post : List Symbol} {X : Symbol} (hleft : Declares before (.nonterminal rule.left))
      (hright : rule.right.toList = pre ++ X :: post) (hpre : ∀ Y ∈ pre, Declares before Y)
      (hX : ¬Declares before X) : FaultyRule before rule (.unknownSymbol X)
  | duplicate {name : String} (hleft : Declares before (.nonterminal rule.left))
      (hright : ∀ X ∈ rule.right, Declares before X) (hmem : rule ∈ declaredRules before)
      (hname : (nonterminalNames before)[rule.left - 1]? = some name) :
    FaultyRule before rule (.duplicateProduction name)

/-- What is wrong with a step behind the steps before it; of several faults the one that is told. -/
inductive Faulty (before : List Step) : Step → Error → Prop where
  | terminal {name : String} {e : Error} (h : FaultyName before name e) :
    Faulty before (.terminal name) e
  | nonterminal {name : String} {e : Error} (h : FaultyName before name e) :
    Faulty before (.nonterminal name) e
  | rule {left : NonterminalId} {right : Array Symbol} {e : Error}
      (h : FaultyRule before ⟨left, right⟩ e) : Faulty before (.rule left right) e
  | start {id : NonterminalId} (h : ¬Declares before (.nonterminal id)) :
    Faulty before (.start id) (.unknownSymbol (.nonterminal id))
  | giveUp (message : String) : Faulty before (.giveUp message) (.other message)

/-- A number is left for what the step declares. -/
def HasRoom (before : List Step) : Step → Prop
  | .terminal _ => (terminalNames before).length + 1 < idLimit
  | .nonterminal _ => (nonterminalNames before).length + 1 < idLimit
  | .rule _ _ => (declaredRules before).length + 1 < idLimit
  | .start _ | .giveUp _ => True

/-- The answer to a step that succeeds: the number after those of its kind before it. -/
def answerAfter (before : List Step) : Step → Answer
  | .terminal _ => .declared ((terminalNames before).length + 1)
  | .nonterminal _ => .declared ((nonterminalNames before).length + 1)
  | .rule _ _ => .declared ((declaredRules before).length + 1)
  | .start _ | .giveUp _ => .done

/-- Something holds of every step behind the steps before it. -/
def Throughout (P : List Step → Step → Prop) (steps : List Step) : Prop :=
  ∀ before step after, steps = before ++ step :: after → P before step

section Throughout

variable {P Q : List Step → Step → Prop}

theorem throughout_nil : Throughout P [] := by
  intro before step after h
  simp at h

theorem throughout_concat_iff :
    Throughout P (steps ++ [step]) ↔ Throughout P steps ∧ P steps step := by
  constructor
  · intro h
    refine ⟨fun before other after hsteps => ?_, h steps step [] rfl⟩
    exact h before other (after ++ [step]) (by simp [hsteps])
  · rintro ⟨h, hlast⟩ before other after heq
    rcases List.eq_nil_or_concat after with rfl | ⟨after, last, rfl⟩
    · obtain ⟨rfl, hstep⟩ := List.append_inj' heq rfl
      cases hstep
      exact hlast
    · have hsplit : steps = before ++ other :: after := by
        rw [List.concat_eq_append, ← List.cons_append, ← List.append_assoc] at heq
        exact List.append_inj_left' heq rfl
      exact h before other after hsplit

theorem Throughout.mono (h : Throughout P steps) (hsub : ∀ before step, P before step →
    Q before step) : Throughout Q steps :=
  fun before step after hsteps => hsub before step (h before step after hsteps)

/-- Otherwise there is a first step of which it does not hold. -/
theorem throughout_or_first (P : List Step → Step → Prop) (steps : List Step) :
    Throughout P steps ∨ ∃ before step after, steps = before ++ step :: after ∧
      Throughout P before ∧ ¬P before step := by
  induction steps using List.reverseRecOn with
  | nil => exact .inl throughout_nil
  | append_singleton steps step ih =>
    rcases ih with hall | ⟨before, other, after, rfl, hbefore, hnot⟩
    · by_cases hlast : P steps step
      · exact .inl (throughout_concat_iff.mpr ⟨hall, hlast⟩)
      · exact .inr ⟨steps, step, [], rfl, hall, hlast⟩
    · exact .inr ⟨before, other, after ++ [step], by simp, hbefore, hnot⟩

end Throughout

/-! ## The definition that the steps make -/

/-- The definition that the steps make if none of them fails. -/
def declared (steps : List Step) : Definition where
  terminals := (terminalNames steps).toArray
  nonterminals := (nonterminalNames steps).toArray
  rules := (declaredRules steps).toArray
  start := chosenStart steps
  nextTerminal := (terminalNames steps).length + 1
  nextNonterminal := (nonterminalNames steps).length + 1
  nextProduction := (declaredRules steps).length + 1

theorem declared_concat (before : List Step) (step : Step) :
    declared (before ++ [step]) = (declared before).after step := by
  cases step <;> simp [declared, after, terminalNames, nonterminalNames, declaredRules, chosenStart,
    Step.terminalName?, Step.nonterminalName?, Step.rule?, Step.start?]

theorem answerTo_declared (before : List Step) (step : Step) :
    (declared before).answerTo step = answerAfter before step := by
  cases step <;> rfl

theorem hasNonterminal_declared_iff {n : NonterminalId} :
    (declared before).hasNonterminal n = true ↔ Declares before (.nonterminal n) := by
  simp [hasNonterminal_iff, Declares, declared, Nat.pos_iff_ne_zero, startNonterminal]

theorem hasSymbol_declared_iff {X : Symbol} :
    (declared before).hasSymbol X = true ↔ Declares before X := by
  cases X with
  | terminal t =>
    simp only [hasSymbol, hasTerminal, Declares, declared, List.size_toArray, decide_eq_true_eq]
    exact ⟨.inr, fun h => h.elim (fun hzero => hzero ▸ Nat.zero_le _) id⟩
  | nonterminal n => exact hasNonterminal_declared_iff

theorem hasName_declared_iff {name : String} : (declared before).hasName name = true ↔
    name ∈ terminalNames before ∨ name ∈ nonterminalNames before := by
  simp [hasName, declared]

theorem mem_rules_declared_iff {rule : Rule} :
    rule ∈ (declared before).rules ↔ rule ∈ declaredRules before := List.mem_toArray

theorem nonterminalName_declared {n : NonterminalId} {name : String}
    (h : (nonterminalNames before)[n - 1]? = some name) :
    (declared before).nonterminalName n = name := by
  simp [nonterminalName, declared, h]

/-! ## Checks -/

theorem checkName_declared_eq_ok_iff {name : String} :
    (declared before).checkName name = .ok () ↔ IsNewName before name := by
  rw [checkName_eq_ok_iff, IsNewName, ← not_or, ← hasName_declared_iff, Bool.not_eq_true]

theorem checkName_declared_of_faulty {name : String} (h : FaultyName before name e) :
    (declared before).checkName name = .error e := by
  unfold checkName
  cases h with
  | invalid h => simp [h]
  | duplicate h hmem => simp [h, hasName_declared_iff.mpr hmem]

theorem checkRule_declared_eq_ok_iff {rule : Rule} : (declared before).checkRule rule = .ok () ↔
    Declares before (.nonterminal rule.left) ∧ (∀ X ∈ rule.right, Declares before X) ∧
      rule ∉ declaredRules before := by
  simp only [checkRule_eq_ok_iff, hasNonterminal_declared_iff, hasSymbol_declared_iff,
    mem_rules_declared_iff]

theorem checkRule_declared_of_faulty {rule : Rule} (h : FaultyRule before rule e) :
    (declared before).checkRule rule = .error e := by
  unfold checkRule
  cases h with
  | left h => simp [Bool.eq_false_iff.mpr (hasNonterminal_declared_iff.not.mpr h)]
  | @right pre post X hleft hright hpre hX =>
    have hfind : rule.right.find? (fun X => !(declared before).hasSymbol X) = some X := by
      rw [← Array.find?_toList, List.find?_eq_some_iff_append]
      refine ⟨?_, pre, post, hright, fun Y hY => ?_⟩
      · simp [Bool.eq_false_iff.mpr (hasSymbol_declared_iff.not.mpr hX)]
      · simp [hasSymbol_declared_iff.mpr (hpre Y hY)]
    simp [hasNonterminal_declared_iff.mpr hleft, hfind]
  | duplicate hleft hright hmem hname =>
    have hfind : rule.right.find? (fun X => !(declared before).hasSymbol X) = none := by
      simpa using fun X hX => hasSymbol_declared_iff.mpr (hright X hX)
    simp [hasNonterminal_declared_iff.mpr hleft, hfind, mem_rules_declared_iff.mpr hmem,
      nonterminalName_declared hname]

/-- **A step is made exactly when it is admissible** and a number is left for it. -/
theorem checkStep_declared_eq_ok_iff : (declared before).checkStep step = .ok () ↔
    Admissible before step ∧ HasRoom before step := by
  cases step with
  | terminal name =>
    rw [checkStep, bind_checkRoom_eq_ok_iff, checkName_declared_eq_ok_iff]
    rfl
  | nonterminal name =>
    rw [checkStep, bind_checkRoom_eq_ok_iff, checkName_declared_eq_ok_iff]
    rfl
  | rule left right =>
    rw [checkStep, bind_checkRoom_eq_ok_iff, checkRule_declared_eq_ok_iff]
    rfl
  | start id =>
    rw [checkStep, checkStart_eq_ok_iff, hasNonterminal_declared_iff]
    exact (and_iff_left trivial).symm
  | giveUp message =>
    constructor
    · intro h
      cases h
    · intro h
      exact h.1.elim

/-- **A faulty step fails as its fault says.** -/
theorem checkStep_declared_of_faulty (h : Faulty before step e) :
    (declared before).checkStep step = .error e := by
  cases h with
  | terminal h => rw [checkStep, checkName_declared_of_faulty h]; rfl
  | nonterminal h => rw [checkStep, checkName_declared_of_faulty h]; rfl
  | rule h => rw [checkStep, checkRule_declared_of_faulty h]; rfl
  | start h =>
    rw [checkStep, checkStart, if_neg (hasNonterminal_declared_iff.not.mpr h)]
  | giveUp message => rfl

theorem isNewName_or_faultyName (before : List Step) (name : String) :
    IsNewName before name ∨ ∃ e, FaultyName before name e := by
  by_cases hident : Ident.isIdentifier name = true
  · by_cases hmem : name ∈ terminalNames before ∨ name ∈ nonterminalNames before
    · exact .inr ⟨_, .duplicate hident hmem⟩
    · exact .inl ⟨hident, not_or.mp hmem⟩
  · exact .inr ⟨_, .invalid (Bool.eq_false_iff.mpr hident)⟩

theorem admissible_or_faultyRule (before : List Step) (rule : Rule) :
    Admissible before (.rule rule.left rule.right) ∨ ∃ e, FaultyRule before rule e := by
  by_cases hleft : Declares before (.nonterminal rule.left)
  · cases hfind : rule.right.toList.find? fun X => !(declared before).hasSymbol X with
    | some X =>
      obtain ⟨hX, pre, post, hright, hpre⟩ := List.find?_eq_some_iff_append.mp hfind
      refine .inr ⟨_, .right hleft hright (fun Y hY => hasSymbol_declared_iff.mp ?_) fun hX' => ?_⟩
      · simpa using hpre Y hY
      · simp [hasSymbol_declared_iff.mpr hX'] at hX
    | none =>
      have hright : ∀ X ∈ rule.right, Declares before X := by
        simpa [hasSymbol_declared_iff] using hfind
      by_cases hmem : rule ∈ declaredRules before
      · obtain ⟨name, hname⟩ := exists_name_of_declares hleft
        exact .inr ⟨_, .duplicate hleft hright hmem hname⟩
      · exact .inl ⟨hleft, hright, hmem⟩
  · exact .inr ⟨_, .left hleft⟩

/-- A step that is not admissible is faulty. -/
theorem admissible_or_faulty (before : List Step) (step : Step) :
    Admissible before step ∨ ∃ e, Faulty before step e := by
  cases step with
  | terminal name =>
    exact (isNewName_or_faultyName before name).imp_right fun ⟨e, h⟩ => ⟨e, .terminal h⟩
  | nonterminal name =>
    exact (isNewName_or_faultyName before name).imp_right fun ⟨e, h⟩ => ⟨e, .nonterminal h⟩
  | rule left right =>
    exact (admissible_or_faultyRule before ⟨left, right⟩).imp_right fun ⟨e, h⟩ => ⟨e, .rule h⟩
  | start id =>
    by_cases hid : Declares before (.nonterminal id)
    · exact .inl hid
    · exact .inr ⟨_, .start hid⟩
  | giveUp message => exact .inr ⟨_, .giveUp message⟩

end Definition

end Lalr
