import Lalr.Proofs.Automaton.Text
import Lalr.Proofs.Grammar.Reordered

/-!
# The texts of productions

A production is written as its left side and the words of its right-hand side,
with a sign in place of an empty one. As names are distinct words, the text
determines the production, but for one thing: the sign for nothing is an
identifier, too, and some symbol may have it for its name.

- `Rule.words`, `Rule.text`: a rule, written with any labels for the symbols.
- `Rule.Imitates`: a rule with one symbol in its right-hand side, whose label is
  the sign for nothing.
- `Rule.text_eq_iff`: two rules are written alike exactly if they are the same or
  one imitates the other.
- `IsDefined.rule_inj`: different productions are different rules.
- `production_text_eq_iff`, `not_production_text_inj`: what this says of the
  productions of a defined grammar and of the lines of its reductions.
-/

namespace Lalr

open Grammar

/-! ## Texts of rules -/

namespace Rule

/-- The words of the right-hand side. -/
def words (label : Symbol → String) (rule : Rule) : List String :=
  if rule.right.toList = [] then ["ε"] else rule.right.toList.map label

/-- A rule, with labels for its symbols. -/
def text (label : Symbol → String) (rule : Rule) : String :=
  label (.nonterminal rule.left) ++ " := " ++ " ".intercalate (rule.words label)

/-- The right-hand side is one symbol, which is written like the empty right-hand side of the other
rule. -/
def Imitates (label : Symbol → String) (rule other : Rule) : Prop :=
  rule.left = other.left ∧ other.right = #[] ∧ ∃ X, rule.right = #[X] ∧ label X = "ε"

/-- The symbols of a rule are known. -/
structure IsOver (known : Symbol → Prop) (rule : Rule) : Prop where
  left : known (.nonterminal rule.left)
  right : ∀ X ∈ rule.right.toList, known X

variable {label : Symbol → String} {known : Symbol → Prop} {rule other : Rule}

/-- A property of the sign for nothing and of the labels is one of the words. -/
theorem forall_mem_words {P : String → Prop} (hsign : P "ε") (hlabel : ∀ {X}, known X → P (label X))
    (h : rule.IsOver known) : ∀ word ∈ rule.words label, P word := by
  unfold words
  split
  · exact List.forall_mem_singleton.mpr hsign
  · exact List.forall_mem_map.mpr fun X hX => hlabel (h.right X hX)

/-- The words of a right-hand side are the sign for nothing if it is empty, or if it has one symbol,
which is written so. -/
theorem words_eq_sign_iff : rule.words label = ["ε"] ↔
    rule.right = #[] ∨ ∃ X, rule.right = #[X] ∧ label X = "ε" := by
  obtain ⟨left, ⟨right⟩⟩ := rule
  match right with
  | [] => simp [words]
  | [X] => simp [words]
  | X :: Y :: right => simp [words]

/-- So rules with the same words have the same right-hand side, or one of them is empty. -/
theorem words_eq_iff (hlabel : IsLabelling label known) (h : rule.IsOver known)
    (h' : other.IsOver known) : rule.words label = other.words label ↔
      rule.right = other.right ∨ rule.words label = ["ε"] ∧ other.words label = ["ε"] := by
  constructor
  · intro heq
    by_cases hnil : rule.right.toList = []
    · have hsign : rule.words label = ["ε"] := if_pos hnil
      exact .inr ⟨hsign, heq ▸ hsign⟩
    · by_cases hnil' : other.right.toList = []
      · have hsign : other.words label = ["ε"] := if_pos hnil'
        exact .inr ⟨heq ▸ hsign, hsign⟩
      · rw [words, words, if_neg hnil, if_neg hnil'] at heq
        exact .inl (Array.toList_inj.mp (hlabel.eq_of_map_eq h.right h'.right heq))
  · rintro (heq | ⟨hsign, hsign'⟩)
    · rw [words, words, heq]
    · rw [hsign, hsign']

/-- Labels can be told apart, so at most one symbol is written like the sign for nothing. -/
theorem eq_or_imitates_iff (hlabel : IsLabelling label known) (h : rule.IsOver known)
    (h' : other.IsOver known) :
    rule.left = other.left ∧ rule.words label = other.words label ↔
      rule = other ∨ rule.Imitates label other ∨ other.Imitates label rule := by
  rw [words_eq_iff hlabel h h', words_eq_sign_iff, words_eq_sign_iff]
  constructor
  · rintro ⟨hleft, heq | ⟨hempty | ⟨X, hX, hsign⟩, hempty' | ⟨Y, hY, hsign'⟩⟩⟩
    · exact .inl (congrArg₂ Rule.mk hleft heq)
    · exact .inl (congrArg₂ Rule.mk hleft (hempty.trans hempty'.symm))
    · exact .inr (.inr ⟨hleft.symm, hempty, Y, hY, hsign'⟩)
    · exact .inr (.inl ⟨hleft, hempty', X, hX, hsign⟩)
    · have hknown : known X := h.right X (by rw [hX]; exact List.mem_singleton_self X)
      have hknown' : known Y := h'.right Y (by rw [hY]; exact List.mem_singleton_self Y)
      obtain rfl := hlabel.inj hknown hknown' (hsign.trans hsign'.symm)
      exact .inl (congrArg₂ Rule.mk hleft (hX.trans hY.symm))
  · rintro (rfl | ⟨hleft, hempty, hsign⟩ | ⟨hleft, hempty, hsign⟩)
    · exact ⟨rfl, .inl rfl⟩
    · exact ⟨hleft, .inr ⟨.inr hsign, .inl hempty⟩⟩
    · exact ⟨hleft.symm, .inr ⟨.inl hempty, .inr hsign⟩⟩

/-- The left side and the words of the right-hand side can be read off. -/
theorem text_inj (hlabel : IsLabelling label known) (h : rule.IsOver known)
    (h' : other.IsOver known) (heq : rule.text label = other.text label) :
    rule.left = other.left ∧ rule.words label = other.words label := by
  have hchars (rule : Rule) : (rule.text label).toList = (label (.nonterminal rule.left)).toList ++
      ' ' :: (":= " ++ " ".intercalate (rule.words label)).toList := by
    rw [text, String.toList_append, String.toList_append, String.toList_append, List.append_assoc]
    rfl
  have hwords {rule : Rule} (h : rule.IsOver known) :
      ∀ word ∈ rule.words label, IsWord ' ' word.toList :=
    forall_mem_words (by simp [IsWord]) (fun hX => isWord_of_isPlain (hlabel.plain hX)) h
  have heq := congrArg String.toList heq
  rw [hchars, hchars] at heq
  obtain ⟨hleft, hright⟩ :=
    append_cons_inj (hlabel.plain h.left).blank (hlabel.plain h'.left).blank heq
  rw [String.toList_inj, String.append_right_inj] at hright
  exact ⟨Symbol.nonterminal.inj (hlabel.inj h.left h'.left (String.toList_inj.mp hleft)),
    intercalate_blank_inj (hwords h) (hwords h') hright⟩

/-- **Rules are written alike exactly if they are the same or one imitates the other.** -/
theorem text_eq_iff (hlabel : IsLabelling label known) (h : rule.IsOver known)
    (h' : other.IsOver known) : rule.text label = other.text label ↔
      rule = other ∨ rule.Imitates label other ∨ other.Imitates label rule := by
  rw [← eq_or_imitates_iff hlabel h h']
  refine ⟨text_inj hlabel h h', fun ⟨hleft, hwords⟩ => ?_⟩
  rw [text, text, hleft, hwords]

/-- A character that is in no label and no mark is not in the text. -/
theorem not_mem_text {c : Char} (hsign : c ∉ " := ε".toList)
    (hlabel : ∀ {X}, known X → c ∉ (label X).toList) (h : rule.IsOver known) :
    c ∉ (rule.text label).toList := by
  have hsplit : " := ε" = " := " ++ "ε" := rfl
  have hblank : c ∉ " ".toList := fun hmem => hsign (by simp_all)
  rw [hsplit, String.toList_append, List.mem_append, not_or] at hsign
  have hwords := not_mem_intercalate hblank (forall_mem_words hsign.2 hlabel h)
  rw [text, String.toList_append, String.toList_append, List.mem_append, List.mem_append, not_or,
    not_or]
  exact ⟨⟨hlabel h.left, hsign.1⟩, hwords⟩

end Rule

/-! ## Texts of productions -/

namespace Grammar

variable {g : Grammar} {p q : ProductionId} {production other : Production} {X : Symbol}

/-- No symbol of a defined grammar has a bracket in its written form. -/
theorem IsDefined.bracket_not_mem_label (hg : g.IsDefined) (hX : g.HasSymbol X) :
    '[' ∉ (g.label X).toList := by
  obtain ⟨steps, hpasses, hdescribes⟩ := hg.exists_describes
  obtain ⟨hident, -⟩ :=
    Definition.isIdentifier_names (Definition.throughout_admissible_of_passes hpasses)
  have hmem := (labels_of_describes hdescribes).mem_iff.mp
    (List.mem_of_getElem? (getElem?_labels hX))
  rw [List.mem_cons, List.mem_cons] at hmem
  rcases hmem with heoi | hstart | hname
  · rw [heoi]
    decide
  · rw [hstart]
    decide
  · exact Ident.not_mem_of_isIdentifier Ident.isStandard_unicode (hident _ hname) (by decide)
      (by decide)

/-- Different productions of a defined grammar are different rules. -/
theorem IsDefined.rule_inj (hg : g.IsDefined) (hp : g.productions[p]? = some production)
    (hq : g.productions[q]? = some other) (heq : production.toRule = other.toRule) : p = q := by
  obtain ⟨steps, hpasses, hdescribes⟩ := hg.exists_describes
  have hnodup : (g.productions.toList.map Production.toRule).Nodup := by
    rw [hdescribes.productions]
    refine List.nodup_cons.mpr ⟨fun hmem => ?_, Definition.nodup_declaredRules
      (Definition.throughout_admissible_of_passes hpasses)⟩
    -- the start of the augmented grammar is no left side of a rule
    have hleft := (Definition.checked_declared hpasses).left _
      (Definition.mem_rules_declared_iff.mpr hmem)
    exact (Definition.hasNonterminal_declared_iff.mp hleft).1 rfl
  have hrule {p : ProductionId} {production : Production}
      (hp : g.productions[p]? = some production) :
      (g.productions.toList.map Production.toRule)[p]? = some production.toRule := by
    rw [List.getElem?_map, Array.getElem?_toList, hp]
    rfl
  have hlt := (List.getElem?_eq_some_iff.mp (hrule hp)).choose
  exact (List.getElem?_inj hlt hnodup).mp ((hrule hp).trans (heq ▸ (hrule hq).symm))

theorem IsDefined.isOver_rule (hg : g.IsDefined) (hp : g.productions[p]? = some production) :
    production.toRule.IsOver g.HasSymbol := by
  obtain ⟨hleft, hright⟩ := hg.hasSymbol_of_expands ⟨production, hp, rfl, rfl⟩
  exact ⟨hleft, hright⟩

/-- The text of a production is that of its rule, with the names of the symbols. -/
theorem production_text_eq (h : production.toRule.IsOver g.HasSymbol) :
    production.text g = .ok (production.toRule.text g.label) := by
  obtain ⟨left, hleft, htext⟩ := nonterminal_text_eq h.left
  refine bind_eq_ok_iff.mpr ⟨left, hleft, bind_eq_ok_iff.mpr
    ⟨_, mapM_eq_ok_map fun X hX => symbolText_eq (h.right X hX), pure_eq_ok_iff.mpr ?_⟩⟩
  rw [htext, Rule.text, Rule.words]
  by_cases hnil : production.right.toList = []
  · simp [hnil]
  · have hne : production.right ≠ #[] := fun heq => hnil (by rw [heq])
    simp [hnil, hne]

end Grammar

/-- **Productions are written differently, up to the sign for nothing**: the texts of two
productions of a defined grammar are equal exactly if the productions are the same, or they expand
the same nonterminal, one to nothing and the other to a symbol whose name is the sign for nothing.
Lines of reductions that are equal show equal texts. -/
theorem production_text_eq_iff {g : Grammar} {p q : ProductionId} {production other : Production}
    (hg : g.IsDefined) (hp : g.productions[p]? = some production)
    (hq : g.productions[q]? = some other) :
    ∃ s t, production.text g = .ok s ∧ other.text g = .ok t ∧
      (s = t ↔ p = q ∨ production.toRule.Imitates g.label other.toRule ∨
        other.toRule.Imitates g.label production.toRule) ∧
      ∀ u v : String, "- " ++ s ++ " on [" ++ u = "- " ++ t ++ " on [" ++ v → s = t := by
  have hover := hg.isOver_rule hp
  have hover' := hg.isOver_rule hq
  refine ⟨_, _, production_text_eq hover, production_text_eq hover', ?_, fun u v heq => ?_⟩
  · rw [Rule.text_eq_iff ⟨hg.isPlain_label, hg.label_inj⟩ hover hover']
    refine or_congr_left ⟨hg.rule_inj hp hq, ?_⟩
    rintro rfl
    cases hp.symm.trans hq
    rfl
  · have hbracket {rule : Rule} (h : rule.IsOver g.HasSymbol) :
        '[' ∉ ("- " ++ rule.text g.label ++ " on ").toList := by
      have htext := Rule.not_mem_text (by decide) hg.bracket_not_mem_label h
      simp [String.toList_append, htext]
    have hchars (s u : String) : ("- " ++ s ++ " on [" ++ u).toList =
        ("- " ++ s ++ " on ").toList ++ '[' :: u.toList := by
      simp [String.toList_append]
    have heq := congrArg String.toList heq
    rw [hchars, hchars] at heq
    obtain ⟨heq, -⟩ := append_cons_inj (hbracket hover) (hbracket hover') heq
    rwa [String.toList_inj, String.append_left_inj, String.append_right_inj] at heq

/-- The grammar with the terminal `ε`, and its productions `S := `, `S := ε` and `S := S ε`. -/
theorem exists_define_emptySign : ∃ g first second third,
    Grammar.define Examples.emptySign = .ok g ∧ g.productions[1]? = some first ∧
      g.productions[2]? = some second ∧ g.productions[3]? = some third ∧
      second.toRule.Imitates g.label first.toRule ∧
      ¬third.toRule.Imitates g.label first.toRule ∧
      ¬first.toRule.Imitates g.label third.toRule := by
  obtain ⟨g, hg, hcheck⟩ := exists_define_of_check Examples.emptySign
    (fun g => g.label (.terminal 1) == "ε" &&
      g.productions.toList.map Production.toRule == [⟨0, #[.nonterminal 1]⟩, ⟨1, #[]⟩,
        ⟨1, #[.terminal 1]⟩, ⟨1, #[.nonterminal 1, .terminal 1]⟩])
    (by decide +kernel)
  simp only [Bool.and_eq_true, beq_iff_eq] at hcheck
  obtain ⟨hlabel, hrules⟩ := hcheck
  have hrule (p : ProductionId) := congrArg (·[p]?) hrules
  simp only [List.getElem?_map, Array.getElem?_toList] at hrule
  obtain ⟨first, hfirst, hrule₁⟩ := Option.map_eq_some_iff.mp (hrule 1)
  obtain ⟨second, hsecond, hrule₂⟩ := Option.map_eq_some_iff.mp (hrule 2)
  obtain ⟨third, hthird, hrule₃⟩ := Option.map_eq_some_iff.mp (hrule 3)
  refine ⟨g, first, second, third, hg, hfirst, hsecond, hthird, ?_, ?_, ?_⟩
  · rw [hrule₁, hrule₂]
    exact ⟨rfl, rfl, .terminal 1, rfl, hlabel⟩
  · rw [hrule₁, hrule₃]
    rintro ⟨-, -, X, hX, -⟩
    cases hX
  · rw [hrule₁, hrule₃]
    rintro ⟨-, hempty, -⟩
    cases hempty

/-- The productions `S := ` and `S := ε` of this grammar are written alike, and `S := S ε` is not
written like them. -/
theorem production_text_emptySign : ∃ g first second third s t u,
    Grammar.define Examples.emptySign = .ok g ∧ g.productions[1]? = some first ∧
      g.productions[2]? = some second ∧ g.productions[3]? = some third ∧
      first.text g = .ok s ∧ second.text g = .ok t ∧ third.text g = .ok u ∧ s = t ∧ s ≠ u := by
  obtain ⟨g, first, second, third, hg, hfirst, hsecond, hthird, himitates, hthird₁, hfirst₃⟩ :=
    exists_define_emptySign
  have hdefined : g.IsDefined := .of_define hg
  obtain ⟨s, t, hs, ht, hiff, -⟩ := production_text_eq_iff hdefined hfirst hsecond
  obtain ⟨s', u, hs', hu, hiff', -⟩ := production_text_eq_iff hdefined hfirst hthird
  cases hs.symm.trans hs'
  refine ⟨g, first, second, third, s, t, u, hg, hfirst, hsecond, hthird, hs, ht, hu,
    hiff.mpr (.inr (.inr himitates)), fun heq => ?_⟩
  rcases hiff'.mp heq with hid | himitates | himitates
  · cases hid
  · exact hfirst₃ himitates
  · exact hthird₁ himitates

/-- So the text of a production does not identify it. -/
theorem not_production_text_inj : ¬∀ (g : Grammar) (p q : ProductionId)
    (production other : Production), g.IsDefined → g.productions[p]? = some production →
      g.productions[q]? = some other → p ≠ q → production.text g ≠ other.text g := by
  intro hall
  obtain ⟨g, first, second, third, hg, hfirst, hsecond, -, himitates, -, -⟩ :=
    exists_define_emptySign
  have hdefined : g.IsDefined := .of_define hg
  have hover := hdefined.isOver_rule hfirst
  have hover' := hdefined.isOver_rule hsecond
  refine hall g 1 2 first second hdefined hfirst hsecond (by decide) ?_
  rw [production_text_eq hover, production_text_eq hover']
  exact congrArg Except.ok ((Rule.text_eq_iff ⟨hdefined.isPlain_label, hdefined.label_inj⟩ hover
    hover').mpr (.inr (.inr himitates)))

end Lalr
