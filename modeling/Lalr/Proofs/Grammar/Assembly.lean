import Lalr.Proofs.Grammar.Defined

/-!
# Putting a grammar together

A definition can keep up with its rules while they are declared: each rule goes
with its number, and each nonterminal has a list of the numbers of its rules. The
rule of the start comes in last then and is sorted to the front, and the used
nonterminals are collected from the right-hand sides.

- `Assembly`: the rules and the lists. `Assembly.after` is what a step that
  succeeds makes of them, `Assembly.close` what the end does.
- `Assembly.IsOf`: the assembly has the rules of a definition. Every step keeps
  this (`Assembly.IsOf.after`).
- `Assembly.IsOf.finish_eq`: what is put together at the end is what
  `Definition.finish` reads off the rules.
- `assemble_eq_result`: so it is after any steps.
-/

namespace Lalr

namespace Definition

/-- The declared rules with their numbers, in the order in which they came in, and the numbers of
the rules of each nonterminal. -/
structure Assembly where
  entries : List (Rule × ProductionId)
  lists : Array (List ProductionId)

namespace Assembly

/-- What there is before the first step: no rule, and the start of the augmented grammar. -/
def empty : Assembly := ⟨[], #[[]]⟩

/-- Takes in a rule; its number is appended to the list of its left side. -/
def insert (asm : Assembly) (rule : Rule) (id : ProductionId) : Assembly :=
  ⟨asm.entries ++ [(rule, id)], asm.lists.modify rule.left (· ++ [id])⟩

/-- The assembly with one more step that succeeded. -/
def after (asm : Assembly) (d : Definition) : Step → Assembly
  | .nonterminal _ => { asm with lists := asm.lists.push [] }
  | .rule left right => asm.insert ⟨left, right⟩ d.nextProduction
  | .terminal _ | .start _ | .giveUp _ => asm

/-- The rule of the start comes in, and the rules are sorted by their numbers. -/
def close (asm : Assembly) (start : NonterminalId) : Assembly :=
  let asm := asm.insert ⟨startNonterminal, #[.nonterminal start]⟩ acceptProduction
  { asm with entries := asm.entries.mergeSort fun a b => a.2 ≤ b.2 }

/-- Adds a nonterminal to those that are used. -/
def use (used : BitSet) : Symbol → BitSet
  | .terminal _ => used
  | .nonterminal n => used.insert n

/-- The start symbol, and the nonterminals of the right-hand sides. -/
def used (asm : Assembly) (start : NonterminalId) : BitSet :=
  asm.entries.foldl (fun used entry => entry.1.right.toList.foldl use used) (.singleton start)

/-- The first nonterminal without rules that is used. -/
def missing? (asm : Assembly) (start : NonterminalId) : Option NonterminalId :=
  let used := asm.used start
  (asm.lists.toList.zipIdx.find? fun (ids, n) => ids.isEmpty && used.contains n).map Prod.snd

/-- The nonterminal with a list of its own. -/
def listed (nonterminal : Nonterminal) (ids : List ProductionId) : Nonterminal :=
  { nonterminal with productions := ids }

/-- The grammar of the rules in which the nonterminals have their lists. -/
def grammar (asm : Assembly) (d : Definition) (start : NonterminalId) : Grammar :=
  let g := Grammar.ofRules d.terminals d.nonterminals (asm.entries.map Prod.fst) start
  { g with nonterminals := g.nonterminals.zipWith listed asm.lists }

/-- The checks of the whole, and the grammar that is put together. -/
def finish (asm : Assembly) (d : Definition) : Except Error Grammar := do
  let start ← d.startSymbol
  let asm := asm.close start
  match asm.missing? start with
  | some n => .error (.missingProductions (d.nonterminalName n))
  | none => .ok (asm.grammar d start)

variable {asm : Assembly} {d : Definition} {start n : NonterminalId} {step : Step}

/-! ## Steps -/

/-- The numbers of the rules that expand a nonterminal. -/
def idsOf (entries : List (Rule × ProductionId)) (n : NonterminalId) : List ProductionId :=
  entries.filterMap fun (rule, id) => if rule.left == n then some id else none

theorem idsOf_append (entries : List (Rule × ProductionId)) (rule : Rule) (id : ProductionId)
    (n : NonterminalId) : idsOf (entries ++ [(rule, id)]) n =
      if rule.left = n then idsOf entries n ++ [id] else idsOf entries n := by
  simp only [idsOf, List.filterMap_append, List.filterMap_cons, List.filterMap_nil, beq_iff_eq]
  split <;> simp_all

/-- The rules of a definition and their numbers are in the assembly. -/
structure IsOf (asm : Assembly) (d : Definition) : Prop where
  entries : asm.entries = d.rules.toList.zipIdx 1
  lists : asm.lists.toList = (List.range (d.nonterminals.size + 1)).map (idsOf asm.entries)
  next : d.nextProduction = d.rules.size + 1

theorem isOf_empty : empty.IsOf {} := ⟨rfl, rfl, rfl⟩

/-- The numbers of one more rule come into the list of its left side. -/
theorem lists_insert {count : Nat} {rule : Rule} {id : ProductionId}
    (h : asm.lists.toList = (List.range count).map (idsOf asm.entries)) :
    (asm.insert rule id).lists.toList =
      (List.range count).map (idsOf (asm.insert rule id).entries) := by
  refine List.ext_getElem? fun n => ?_
  simp only [insert, Array.toList_modify, h, List.getElem?_modify, List.getElem?_map]
  by_cases hn : n < count
  · rw [List.getElem?_range hn]
    by_cases hleft : rule.left = n <;> simp [hleft, idsOf_append]
  · rw [List.getElem?_eq_none (by simpa using hn)]
    simp

/-- No rule expands a nonterminal that is not declared yet. -/
theorem IsOf.idsOf_eq_nil (h : asm.IsOf d) (hchecked : d.Checked)
    (hn : d.hasNonterminal n = false) : idsOf asm.entries n = [] := by
  rw [idsOf, List.filterMap_eq_nil_iff]
  rintro ⟨rule, id⟩ hmem
  rw [h.entries] at hmem
  have hrule : rule ∈ d.rules := Array.mem_toList_iff.mp (List.fst_mem_of_mem_zipIdx hmem)
  refine if_neg fun hleft => ?_
  rw [beq_iff_eq] at hleft
  rw [← hleft, hchecked.left rule hrule] at hn
  cases hn

/-- The list into which the number of a rule goes is there, also that of the start. -/
theorem IsOf.left_lt_size {rule : Rule} (h : asm.IsOf d)
    (hleft : d.checkRule rule = .ok () ∨ rule.left = startNonterminal) :
    rule.left < asm.lists.size := by
  have hsize : asm.lists.size = d.nonterminals.size + 1 := by
    rw [← Array.length_toList, h.lists, List.length_map, List.length_range]
  rw [hsize]
  rcases hleft with hcheck | hstart
  · exact Nat.lt_succ_of_le (hasNonterminal_iff.mp (checkRule_eq_ok_iff.mp hcheck).1).2
  · exact hstart ▸ Nat.succ_pos _

/-- **A step keeps the rules and their lists together.** -/
theorem IsOf.after (h : asm.IsOf d) (hchecked : d.Checked)
    (hcheck : d.checkStep step = .ok ()) : (asm.after d step).IsOf (d.after step) := by
  cases step with
  | terminal name => exact ⟨h.entries, h.lists, h.next⟩
  | nonterminal name =>
    have hnew : idsOf asm.entries (d.nonterminals.size + 1) = [] :=
      h.idsOf_eq_nil hchecked (by simp [hasNonterminal])
    refine ⟨h.entries, ?_, h.next⟩
    simp only [Assembly.after, Definition.after, Array.toList_push, Array.size_push, h.lists]
    rw [List.range_succ (n := d.nonterminals.size + 1), List.map_append, List.map_singleton, hnew]
  | rule left right =>
    refine ⟨?_, lists_insert h.lists, ?_⟩
    · simp [Assembly.after, Definition.after, insert, h.entries, h.next, List.zipIdx_append,
        Nat.add_comm]
    · simp [Definition.after, h.next]
  | start id => exact ⟨h.entries, h.lists, h.next⟩
  | giveUp message => cases hcheck

/-! ## The end -/

/-- Sorting brings the rule of the start to the front. -/
theorem IsOf.entries_close (h : asm.IsOf d) (start : NonterminalId) :
    (asm.close start).entries = (d.augmentedRules start).zipIdx := by
  let le (a b : Rule × ProductionId) : Prop := a.2 ≤ b.2
  have hids : ((d.augmentedRules start).zipIdx.map Prod.snd).Pairwise (· < ·) := by
    rw [List.zipIdx_map_snd]
    exact List.pairwise_lt_range'
  have hperm : (asm.close start).entries.Perm (d.augmentedRules start).zipIdx := by
    refine (List.mergeSort_perm _ _).trans ?_
    simp only [insert, h.entries]
    exact List.perm_append_comm
  have hsorted : (asm.close start).entries.Pairwise le := by
    have hsort := @List.pairwise_mergeSort _ (fun a b : Rule × ProductionId => a.2 ≤ b.2)
      (fun _ _ _ => by simpa using Nat.le_trans) (fun _ _ => by simpa using Nat.le_total _ _)
      (asm.insert ⟨startNonterminal, #[.nonterminal start]⟩ acceptProduction).entries
    exact hsort.imp of_decide_eq_true
  refine hperm.eq_of_pairwise (fun a b ha hb hab hba => ?_) hsorted
    ((List.pairwise_map.mp hids).imp Nat.le_of_lt)
  -- a number belongs to one rule
  have hmem := hperm.subset ha
  have hid : a.2 = b.2 := Nat.le_antisymm hab hba
  rw [List.mem_zipIdx_iff_getElem?] at hmem hb
  rw [hid, hb] at hmem
  exact Prod.ext (Option.some.inj hmem).symm hid

/-- The lists are those of the rules of the augmented grammar. -/
theorem IsOf.lists_close (h : asm.IsOf d) (hchecked : d.Checked) (start : NonterminalId) :
    (asm.close start).lists.toList =
      (List.range (d.nonterminals.size + 1)).map (rulesOf (d.augmentedRules start)) := by
  refine (lists_insert h.lists).trans (List.map_congr_left fun n _ => ?_)
  have hrules : rulesOf (d.augmentedRules start) n =
      if startNonterminal = n then acceptProduction :: idsOf asm.entries n
      else idsOf asm.entries n := by
    by_cases hn : startNonterminal = n <;>
      simp [rulesOf, augmentedRules, idsOf, h.entries, hn, acceptProduction]
  rw [hrules]
  simp only [insert, idsOf_append]
  split
  · next hn =>
    -- the start is not declared, so there is no other rule for it
    rw [h.idsOf_eq_nil hchecked (by simp [hasNonterminal, ← hn, startNonterminal])]
    rfl
  · rfl

theorem mem_foldl_use {symbols : List Symbol} {used : BitSet} :
    n ∈ symbols.foldl use used ↔ n ∈ used ∨ .nonterminal n ∈ symbols := by
  induction symbols generalizing used with
  | nil => simp
  | cons X symbols ih =>
    rw [List.foldl_cons, ih, List.mem_cons]
    cases X with
    | terminal t => simp [use]
    | nonterminal m =>
      rw [use, BitSet.mem_insert, Symbol.nonterminal.injEq, or_assoc]
      exact or_left_comm

theorem mem_used : n ∈ asm.used start ↔
    n = start ∨ ∃ rule ∈ asm.entries.map Prod.fst, .nonterminal n ∈ rule.right := by
  rw [used, ← List.foldl_flatMap, mem_foldl_use, BitSet.mem_singleton, List.mem_flatMap]
  simp

/-- The nonterminal that is missing is the first one that lacks rules. -/
theorem IsOf.missing?_close (h : asm.IsOf d) (hchecked : d.Checked) (start : NonterminalId) :
    (asm.close start).missing? start =
      (List.range (d.nonterminals.size + 1)).find? (lacksRules (d.augmentedRules start)) := by
  have hlacks (n : NonterminalId) :
      ((rulesOf (d.augmentedRules start) n).isEmpty && ((asm.close start).used start).contains n) =
        lacksRules (d.augmentedRules start) n := by
    -- the start symbol stands in the rule of the start
    have hstart : n = start → ∃ rule ∈ d.augmentedRules start, .nonterminal n ∈ rule.right := by
      rintro rfl
      exact ⟨_, List.mem_cons_self, by simp⟩
    rw [Bool.eq_iff_iff, Bool.and_eq_true, List.isEmpty_iff, BitSet.contains_eq_true, mem_used,
      lacksRules_iff, rulesOf_eq_nil_iff, h.entries_close, List.zipIdx_map_fst]
    exact and_congr_right fun _ => ⟨fun hused => hused.elim hstart id, .inr⟩
  have hzip : (asm.close start).lists.toList.zipIdx =
      (List.range (d.nonterminals.size + 1)).map fun n =>
        (rulesOf (d.augmentedRules start) n, n) := by
    rw [h.lists_close hchecked]
    exact List.ext_getElem (by simp) fun i _ _ => by simp
  rw [missing?, hzip, List.find?_map, Option.map_map]
  simp only [Function.comp_def, hlacks, Option.map_id']

/-- Nonterminals that get the lists that they have stay the same. -/
theorem zipWith_listed {nonterminals : Array Nonterminal} {lists : Array (List ProductionId)}
    (h : ∀ (n : NonterminalId) (nonterminal : Nonterminal),
      nonterminals[n]? = some nonterminal → lists[n]? = some nonterminal.productions) :
    nonterminals.zipWith listed lists = nonterminals := by
  refine Array.ext_getElem? fun n => ?_
  rw [Array.getElem?_zipWith]
  cases hn : nonterminals[n]? with
  | none => rfl
  | some nonterminal =>
    rw [h n nonterminal hn]
    rfl

theorem IsOf.grammar_close (h : asm.IsOf d) (hchecked : d.Checked) (start : NonterminalId) :
    (asm.close start).grammar d start =
      .ofRules d.terminals d.nonterminals (d.augmentedRules start) start := by
  have hrules : (asm.close start).entries.map Prod.fst = d.augmentedRules start := by
    rw [h.entries_close, List.zipIdx_map_fst]
  rw [grammar, hrules, zipWith_listed fun n nonterminal hn => ?_]
  have hlt := (Array.getElem?_eq_some_iff.mp hn).choose
  rw [Grammar.size_nonterminals_ofRules] at hlt
  rw [Grammar.productions_of_ofRules hn, ← Array.getElem?_toList, h.lists_close hchecked,
    List.getElem?_map, List.getElem?_range hlt, Option.map_some]

/-- **The grammar that is put together is the one that is read off the rules.** -/
theorem IsOf.finish_eq (h : asm.IsOf d) (hchecked : d.Checked) : asm.finish d = d.finish := by
  rw [finish, Definition.finish]
  cases hstart : d.startSymbol with
  | error e => rfl
  | ok start =>
    show (match (asm.close start).missing? start with
      | some n => _
      | none => _) = _
    rw [h.missing?_close hchecked, h.grammar_close hchecked]
    rfl

/-! ## All steps -/

/-- What becomes of the assembly when a step is made: it changes if the step succeeds. -/
def next (asm : Assembly) (progress : Progress) (step : Step) : Assembly :=
  match progress.outcome with
  | .error _ => asm
  | .ok d =>
    match (apply step).run d with
    | .ok _ _ => asm.after d step
    | .error _ _ => asm

/-- A definition in progress, and its assembly. -/
def IsAlong (progress : Progress) (asm : Assembly) : Prop :=
  progress.IsChecked ∧ ∀ d, progress.outcome = .ok d → asm.IsOf d

theorem isAlong_empty : IsAlong {} .empty := by
  constructor
  · intro d hd
    cases hd
    exact checked_empty
  · intro d hd
    cases hd
    exact isOf_empty

theorem IsAlong.next {lenient : Bool} {progress : Progress} (h : IsAlong progress asm)
    (step : Step) : IsAlong (progress.step lenient step) (asm.next progress step) := by
  refine ⟨h.1.step step, ?_⟩
  obtain ⟨answers, outcome⟩ := progress
  cases outcome with
  | error e => exact h.2
  | ok d =>
    intro d' hd'
    cases hcheck : d.checkStep step with
    | ok u =>
      rw [Progress.step_of_ok hcheck] at hd'
      cases hd'
      simp only [Assembly.next, run_apply, hcheck]
      exact (h.2 d rfl).after (h.1 d rfl) hcheck
    | error e =>
      rw [Progress.step_of_error hcheck] at hd'
      simp only [Assembly.next, run_apply, hcheck]
      dsimp only at hd'
      split at hd'
      · cases hd'
        exact h.2 d rfl
      · cases hd'

end Assembly

/-- One more step of a definition, with its assembly kept up. -/
def assembleStep (lenient : Bool) (state : Progress × Assembly) (step : Step) :
    Progress × Assembly :=
  (state.1.step lenient step, state.2.next state.1 step)

/-- Makes the steps one by one, and puts the grammar together. -/
def assemble (lenient : Bool) (steps : List Step) : Except Error Grammar :=
  let state := steps.foldl (assembleStep lenient) ({}, .empty)
  state.1.outcome.bind state.2.finish

theorem foldl_assembleStep {lenient : Bool} {state : Progress × Assembly}
    (h : Assembly.IsAlong state.1 state.2) (steps : List Step) :
    (steps.foldl (assembleStep lenient) state).1 = steps.foldl (Progress.step lenient) state.1 ∧
      Assembly.IsAlong (steps.foldl (assembleStep lenient) state).1
        (steps.foldl (assembleStep lenient) state).2 := by
  induction steps generalizing state with
  | nil => exact ⟨rfl, h⟩
  | cons step steps ih => exact ih (h.next step)

/-- **After any steps, what is put together is the grammar that they define**; if there is a failure
instead, it is theirs. -/
theorem assemble_eq_result (lenient : Bool) (steps : List Step) :
    assemble lenient steps = (replay lenient steps).result := by
  obtain ⟨hprogress, hchecked, hof⟩ :=
    @foldl_assembleStep lenient ({}, .empty) Assembly.isAlong_empty steps
  have hresult : (replay lenient steps).result =
      (steps.foldl (Progress.step lenient) {}).outcome.bind finish := rfl
  rw [hresult, assemble, ← hprogress]
  cases houtcome : (steps.foldl (assembleStep lenient) ({}, .empty)).1.outcome with
  | error e => rfl
  | ok d => exact (hof d houtcome).finish_eq (hchecked d houtcome)

end Definition

end Lalr
