import Lalr.Proofs.Grammar.First
import Lalr.Proofs.Grammar.Steps

/-!
# Grammars that come out of a definition

`Grammar.IsDefined` holds of the grammars that a sequence of steps defines,
whether or not steps that fail are passed over. What the checks of the steps
guarantee of such a grammar is collected in `Grammar.WellFormed`
(`IsDefined.wellFormed`): nothing but production 0 expands the start of the
augmented grammar, no right-hand side mentions it, every used nonterminal has a
production, and the tables are exact.
-/

namespace Lalr

namespace Definition

/-- All declared rules and the chosen start symbol passed the checks of their steps. -/
structure Checked (d : Definition) : Prop where
  left : ∀ rule ∈ d.rules, d.hasNonterminal rule.left = true
  right : ∀ rule ∈ d.rules, ∀ X ∈ rule.right, d.hasSymbol X = true
  start : ∀ id, d.start = some id → d.hasNonterminal id = true

variable {d d' : Definition}

theorem checked_empty : Checked {} := ⟨by simp, by simp, by simp⟩

theorem hasNonterminal_iff {id : NonterminalId} :
    d.hasNonterminal id = true ↔ 0 < id ∧ id ≤ d.nonterminals.size := by
  simp [hasNonterminal]

/-- A declaration of a symbol takes nothing away. -/
theorem Checked.declare (h : d.Checked) (hrules : d'.rules = d.rules) (hstart : d'.start = d.start)
    (hterminals : d.terminals.size ≤ d'.terminals.size)
    (hnonterminals : d.nonterminals.size ≤ d'.nonterminals.size) : d'.Checked := by
  have hmono (id : NonterminalId) (hid : d.hasNonterminal id = true) :
      d'.hasNonterminal id = true := by
    rw [hasNonterminal_iff] at hid ⊢
    exact ⟨hid.1, Nat.le_trans hid.2 hnonterminals⟩
  refine ⟨fun rule hmem => hmono _ (h.left rule (hrules ▸ hmem)), fun rule hmem X hX => ?_,
    fun id hid => hmono id (h.start id (hstart ▸ hid))⟩
  have hsymbol := h.right rule (hrules ▸ hmem) X hX
  cases X with
  | terminal t =>
    simp only [hasSymbol, hasTerminal, decide_eq_true_eq] at hsymbol ⊢
    exact Nat.le_trans hsymbol hterminals
  | nonterminal n => exact hmono n hsymbol

theorem Checked.after {step : Step} (h : d.Checked) (hcheck : d.checkStep step = .ok ()) :
    (d.after step).Checked := by
  cases step with
  | terminal name => exact h.declare rfl rfl (by simp [Definition.after]) (Nat.le_refl _)
  | nonterminal name => exact h.declare rfl rfl (Nat.le_refl _) (by simp [Definition.after])
  | rule left right =>
    obtain ⟨_, hrule, -⟩ := bind_eq_ok_iff.mp hcheck
    obtain ⟨hleft, hright, -⟩ := checkRule_eq_ok_iff.mp hrule
    refine ⟨fun other hmem => ?_, fun other hmem => ?_, h.start⟩
    · rcases Array.mem_push.mp hmem with hmem | rfl
      · exact h.left other hmem
      · exact hleft
    · rcases Array.mem_push.mp hmem with hmem | rfl
      · exact h.right other hmem
      · exact hright
  | start id =>
    have hid := checkStart_eq_ok_iff.mp hcheck
    exact ⟨h.left, h.right, fun other hother => Option.some.inj hother ▸ hid⟩
  | giveUp message => cases hcheck

/-- The definition in progress, if none of its failures ended it, is checked. -/
def Progress.IsChecked (progress : Progress) : Prop := ∀ d, progress.outcome = .ok d → d.Checked

theorem Progress.IsChecked.step {lenient : Bool} {progress : Progress} (h : progress.IsChecked)
    (step : Step) : (progress.step lenient step).IsChecked := by
  obtain ⟨answers, outcome⟩ := progress
  cases outcome with
  | error e => exact h
  | ok d =>
    intro d' hd'
    cases hcheck : d.checkStep step with
    | ok u =>
      rw [step_of_ok hcheck] at hd'
      cases hd'
      exact (h d rfl).after hcheck
    | error e =>
      rw [step_of_error hcheck] at hd'
      dsimp only at hd'
      split at hd'
      · cases hd'
        exact h d rfl
      · cases hd'

theorem Checked.startSymbol {id : NonterminalId} (h : d.Checked) (hs : d.startSymbol = .ok id) :
    d.hasNonterminal id = true := by
  unfold Definition.startSymbol at hs
  split at hs
  · next chosen =>
    cases hs
    exact h.start _ chosen
  · split at hs
    · cases hs
    · next hne =>
      cases hs
      refine hasNonterminal_iff.mpr ⟨Nat.zero_lt_one, Nat.succ_le_of_lt (Nat.pos_of_ne_zero ?_)⟩
      simpa using hne

/-- A definition that is finished has a checked start symbol, and no used nonterminal lacks
rules. -/
theorem finish_eq_ok {g : Grammar} (h : d.finish = .ok g) : ∃ start, d.startSymbol = .ok start ∧
    (∀ n ≤ d.nonterminals.size, lacksRules (d.augmentedRules start) n = false) ∧
    g = .ofRules d.terminals d.nonterminals (d.augmentedRules start) start := by
  obtain ⟨start, hstart, h⟩ := bind_eq_ok_iff.mp h
  refine ⟨start, hstart, ?_⟩
  dsimp only at h
  split at h
  · cases h
  · next hfind =>
    cases h
    refine ⟨fun n hn => ?_, rfl⟩
    have := List.find?_eq_none.mp hfind n (List.mem_range.mpr (Nat.lt_succ_of_le hn))
    simpa using this

end Definition

namespace Grammar

/-- The grammar comes out of a sequence of definition steps; steps that fail may be passed over. -/
def IsDefined (g : Grammar) : Prop :=
  ∃ lenient steps, (Definition.replay lenient steps).result = .ok g

theorem IsDefined.of_define {steps : List Definition.Step} {g : Grammar}
    (h : Grammar.define steps = .ok g) : g.IsDefined := ⟨false, steps, h⟩

/-- A test of an example: its grammar is defined and passes. -/
theorem exists_define_of_check (steps : List Definition.Step) (check : Grammar → Bool)
    (h : (match define steps with
      | .error _ => false
      | .ok g => check g) = true) : ∃ g, define steps = .ok g ∧ check g = true := by
  split at h
  · cases h
  · next g hg => exact ⟨g, hg, h⟩

/-- What the construction of an automaton relies on: production 0, and no other, expands the start
of the augmented grammar, to the start symbol; no right-hand side mentions it, and every nonterminal
of one is in the tables and expanded by some production. A nonterminal lists the productions that
expand it, and the table of a production has an exact entry for each of its suffixes. -/
structure WellFormed (g : Grammar) : Prop where
  accept : g.Expands acceptProduction startNonterminal [.nonterminal g.start]
  eq_accept : ∀ {p right}, g.Expands p startNonterminal right → p = acceptProduction
  start_not_mem : ∀ {p n right}, g.Expands p n right → .nonterminal startNonterminal ∉ right
  expanded : ∀ {p n right m}, g.Expands p n right → .nonterminal m ∈ right →
    ∃ p' right', g.Expands p' m right'
  known : ∀ {p n right} {m : NonterminalId}, g.Expands p n right → .nonterminal m ∈ right →
    ∃ nonterminal, g.nonterminals[m]? = some nonterminal
  mem_productions_iff : ∀ {n : NonterminalId} {p : ProductionId} {nonterminal : Nonterminal},
    g.nonterminals[n]? = some nonterminal →
    (p ∈ nonterminal.productions ↔ ∃ right, g.Expands p n right)
  exists_suffix : ∀ {p : ProductionId} {production : Production},
    g.productions[p]? = some production → ∀ pos, ∃ known, production.suffix pos = .ok known ∧
      known.IsExact g (production.right.toList.drop pos)

/-- A nonterminal of the tables lists the numbers of its rules. -/
theorem productions_of_ofRules {terminals nonterminals : Array String} {rules : List Rule}
    {start n : NonterminalId} {nonterminal : Nonterminal}
    (h : (ofRules terminals nonterminals rules start).nonterminals[n]? = some nonterminal) :
    nonterminal.productions = rulesOf rules n := by
  simp only [ofRules, Array.getElem?_mapIdx, Option.map_eq_some_iff] at h
  obtain ⟨name, -, rfl⟩ := h
  rfl

/-- What the checks of a definition guarantee of the rules of its grammar: the first one, and no
other, expands the start of the augmented grammar, to the start symbol; every left side is known,
and every nonterminal of a right-hand side is another one that some rule expands. -/
structure AugmentedRules (rules : List Rule) (start : NonterminalId) (count : Nat) : Prop where
  head : rules[0]? = some ⟨startNonterminal, #[.nonterminal start]⟩
  tail : ∀ p rule, rules[p + 1]? = some rule → rule.left ≠ startNonterminal
  left_lt : ∀ rule ∈ rules, rule.left < count
  used : ∀ rule ∈ rules, ∀ m, .nonterminal m ∈ rule.right.toList →
    m ≠ startNonterminal ∧ ∃ other ∈ rules, other.left = m

theorem AugmentedRules.wellFormed {terminals nonterminals : Array String} {rules : List Rule}
    {start : NonterminalId} (h : AugmentedRules rules start (nonterminals.size + 1)) :
    (ofRules terminals nonterminals rules start).WellFormed := by
  refine ⟨?_, ?_, ?_, ?_, ?_, ?_, ?_⟩
  · exact expands_ofRules_iff.mpr ⟨_, h.head, rfl, rfl⟩
  · intro p right hp
    obtain ⟨rule, hrule, hleft, -⟩ := expands_ofRules_iff.mp hp
    cases p with
    | zero => rfl
    | succ p => exact absurd hleft (h.tail p rule hrule)
  · intro p n right hp hmem
    obtain ⟨rule, hrule, -, rfl⟩ := expands_ofRules_iff.mp hp
    exact (h.used rule (List.mem_of_getElem? hrule) _ hmem).1 rfl
  · intro p n right m hp hmem
    obtain ⟨rule, hrule, -, rfl⟩ := expands_ofRules_iff.mp hp
    obtain ⟨-, other, hother, rfl⟩ := h.used rule (List.mem_of_getElem? hrule) m hmem
    obtain ⟨p', hp'⟩ := expands_of_mem (fun _ _ _ => expands_ofRules_iff) hother
    exact ⟨p', _, hp'⟩
  · intro p n right m hp hmem
    obtain ⟨rule, hrule, -, rfl⟩ := expands_ofRules_iff.mp hp
    obtain ⟨-, other, hother, rfl⟩ := h.used rule (List.mem_of_getElem? hrule) m hmem
    have hlt : other.left <
        (ofRules terminals nonterminals rules start).nonterminals.size := by
      rw [size_nonterminals_ofRules]
      exact h.left_lt other hother
    exact ⟨_, Array.getElem?_eq_getElem hlt⟩
  · intro n p nonterminal hn
    rw [productions_of_ofRules hn, mem_rulesOf]
    constructor
    · rintro ⟨rule, hrule, hleft⟩
      exact ⟨_, expands_ofRules_iff.mpr ⟨rule, hrule, hleft, rfl⟩⟩
    · rintro ⟨right, hp⟩
      obtain ⟨rule, hrule, hleft, -⟩ := expands_ofRules_iff.mp hp
      exact ⟨rule, hrule, hleft⟩
  · exact fun hp pos => exists_suffix_ofRules h.left_lt hp pos

end Grammar

/-- The rules of a finished definition passed all checks. -/
theorem Definition.Checked.augmentedRules {d : Definition} {start : NonterminalId} (h : d.Checked)
    (hstart : d.startSymbol = .ok start)
    (hlacks : ∀ n ≤ d.nonterminals.size, lacksRules (d.augmentedRules start) n = false) :
    Grammar.AugmentedRules (d.augmentedRules start) start (d.nonterminals.size + 1) := by
  have hmem_iff {rule : Rule} : rule ∈ d.augmentedRules start ↔
      rule = ⟨startNonterminal, #[.nonterminal start]⟩ ∨ rule ∈ d.rules := by
    simp [Definition.augmentedRules]
  have hleft {rule : Rule} (hmem : rule ∈ d.rules) := hasNonterminal_iff.mp (h.left rule hmem)
  refine ⟨rfl, fun p rule hrule => ?_, fun rule hmem => ?_, fun rule hmem m hm => ?_⟩
  · rw [Definition.augmentedRules, List.getElem?_cons_succ] at hrule
    exact Nat.ne_of_gt (hleft (Array.mem_toList_iff.mp (List.mem_of_getElem? hrule))).1
  · rcases hmem_iff.mp hmem with rfl | hmem
    · exact Nat.succ_pos _
    · exact Nat.lt_succ_of_le (hleft hmem).2
  · have hdeclared : 0 < m ∧ m ≤ d.nonterminals.size := by
      rcases hmem_iff.mp hmem with rfl | hmem
      · cases List.mem_singleton.mp hm
        exact hasNonterminal_iff.mp (h.startSymbol hstart)
      · exact hasNonterminal_iff.mp (h.right rule hmem _ (Array.mem_toList_iff.mp hm))
    refine ⟨Nat.ne_of_gt hdeclared.1, Classical.byContradiction fun hnone => ?_⟩
    have hnot : ¬lacksRules (d.augmentedRules start) m := by simp [hlacks m hdeclared.2]
    rw [lacksRules_iff] at hnot
    exact hnot ⟨fun other hother heq => hnone ⟨other, hother, heq⟩, rule, hmem,
      Array.mem_toList_iff.mp hm⟩

/-- **Every defined grammar is well-formed.** -/
theorem Grammar.IsDefined.wellFormed {g : Grammar} (h : g.IsDefined) : g.WellFormed := by
  obtain ⟨lenient, steps, h⟩ := h
  have hchecked : (steps.foldl (Definition.Progress.step lenient) {}).IsChecked :=
    List.foldlRecOn (motive := Definition.Progress.IsChecked) steps _
      (fun d hd => by cases hd; exact Definition.checked_empty)
      fun _ hkept step _ => hkept.step step
  obtain ⟨d, houtcome, hfinish⟩ := bind_eq_ok_iff.mp h
  obtain ⟨start, hstart, hlacks, rfl⟩ := Definition.finish_eq_ok hfinish
  exact ((hchecked d houtcome).augmentedRules hstart hlacks).wellFormed

end Lalr
