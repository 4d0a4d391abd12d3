import Lalr.Grammar.Text
import Lalr.Proofs.Grammar.Outcome

/-!
# The names of symbols

In the texts of a grammar a symbol is written by its name alone. The names of a
defined grammar can stand for the symbols: no name is empty or has a character
that separates words or lines or marks a place (`IsDefined.isPlain_label`), and
no two symbols are written alike, be they terminals, nonterminals or the two
reserved ones (`IsDefined.label_inj`).

- `Ident.IsPlain`: a name that can stand as a word in a text.
- `Grammar.HasSymbol`, `Grammar.label`: the symbols of a grammar and how they are
  written.
- `IsDefined.hasSymbol_of_expands`: productions are made of symbols of the
  grammar, and so is what they derive.
-/

namespace Lalr

/-! ## Identifiers -/

namespace Ident

/-- The name can stand as a word in a text: it has none of the characters that separate words and
lines and mark places. -/
structure IsPlain (name : String) : Prop where
  ne_empty : name ≠ ""
  blank : ' ' ∉ name.toList
  newline : '\n' ∉ name.toList
  point : '.' ∉ name.toList

section Classes

-- nothing is used of the classes but what they have in common
variable {xid : Classes} (hxid : xid.IsStandard)

include hxid

theorem isContinue_of_isWord {cs : List Char} (h : xid.isWord cs = true) :
    cs ≠ [] ∧ ∀ c ∈ cs, xid.isContinue c = true := by
  cases cs with
  | nil => cases h
  | cons c cs =>
    rw [Classes.isWord, Bool.and_eq_true, Bool.or_eq_true, beq_iff_eq, List.all_eq_true] at h
    refine ⟨List.cons_ne_nil c cs, List.forall_mem_cons.mpr ⟨?_, h.2⟩⟩
    rcases h.1 with rfl | hstart
    · exact (hxid.ascii_iff '_' (by decide)).mpr (.inr rfl)
    · exact hxid.continue_of_start c hstart

/-- An identifier has no characters but those of words, and the mark. -/
theorem isContinue_of_isIdentifier {name : String} (h : xid.isIdentifier name = true) :
    name.toList ≠ [] ∧ ∀ c ∈ name.toList, c = '#' ∨ xid.isContinue c = true := by
  unfold Classes.isIdentifier Classes.isIdentifierOf at h
  replace h := (Bool.and_eq_true_iff.mp h).2
  split at h
  · next word hname =>
    obtain ⟨-, hword⟩ := isContinue_of_isWord hxid (Bool.and_eq_true_iff.mp h).2
    have hr : xid.isContinue 'r' = true := (hxid.ascii_iff 'r' (by decide)).mpr (.inl (by decide))
    rw [hname]
    refine ⟨List.cons_ne_nil _ _, List.forall_mem_cons.mpr ⟨.inr hr, ?_⟩⟩
    exact List.forall_mem_cons.mpr ⟨.inl rfl, fun c hc => .inr (hword c hc)⟩
  · obtain ⟨hne, hword⟩ := isContinue_of_isWord hxid (Bool.and_eq_true_iff.mp h).2
    exact ⟨hne, fun c hc => .inr (hword c hc)⟩

/-- An identifier has no character of ASCII but letters, digits, the underscore and the mark. -/
theorem not_mem_of_isIdentifier {name : String} {c : Char} (h : xid.isIdentifier name = true)
    (hsmall : c.toNat < 128) (hother : ¬(c = '#' ∨ c.isAlphanum ∨ c = '_')) :
    c ∉ name.toList := by
  intro hmem
  rcases (isContinue_of_isIdentifier hxid h).2 c hmem with heq | hcontinue
  · exact hother (.inl heq)
  · exact hother (.inr ((hxid.ascii_iff c hsmall).mp hcontinue))

theorem isPlain_of_isIdentifier {name : String} (h : xid.isIdentifier name = true) :
    IsPlain name := by
  constructor
  case ne_empty =>
    rintro rfl
    exact (isContinue_of_isIdentifier hxid h).1 rfl
  case blank => exact not_mem_of_isIdentifier hxid h (by decide) (by decide)
  case newline => exact not_mem_of_isIdentifier hxid h (by decide) (by decide)
  case point => exact not_mem_of_isIdentifier hxid h (by decide) (by decide)

/-- The sign that the reserved names begin with belongs to no identifier. -/
theorem dollar_not_mem_of_isIdentifier {name : String} (h : xid.isIdentifier name = true) :
    '$' ∉ name.toList :=
  not_mem_of_isIdentifier hxid h (by decide) (by decide)

end Classes

end Ident

/-! ## Declared names -/

namespace Definition

variable {steps : List Step}

/-- The names of all symbols that the steps declare, terminals first. -/
def names (steps : List Step) : List String := terminalNames steps ++ nonterminalNames steps

/-- One more admissible step declares a new identifier or no name. -/
theorem names_concat {step : Step} (h : Admissible steps step) :
    names (steps ++ [step]) = names steps ∨ ∃ name, Ident.isIdentifier name = true ∧
      name ∉ names steps ∧ (names (steps ++ [step])).Perm (name :: names steps) := by
  have hnew {name : String} (h : IsNewName steps name) : name ∉ names steps :=
    fun hmem => (List.mem_append.mp hmem).elim h.2.1 h.2.2
  have hterminals : terminalNames (steps ++ [step]) =
      terminalNames steps ++ step.terminalName?.toList := by
    rw [terminalNames, List.filterMap_append]
    cases step <;> rfl
  have hnonterminals : nonterminalNames (steps ++ [step]) =
      nonterminalNames steps ++ step.nonterminalName?.toList := by
    rw [nonterminalNames, List.filterMap_append]
    cases step <;> rfl
  rw [names, hterminals, hnonterminals]
  cases step with
  | terminal name =>
    refine .inr ⟨name, h.1, hnew h, ?_⟩
    simp [names, Step.terminalName?, Step.nonterminalName?]
  | nonterminal name =>
    refine .inr ⟨name, h.1, hnew h, ?_⟩
    simpa [names, Step.terminalName?, Step.nonterminalName?] using
      List.perm_append_singleton name (names steps)
  | rule left right => exact .inl (by simp [names, Step.terminalName?, Step.nonterminalName?])
  | start id => exact .inl (by simp [names, Step.terminalName?, Step.nonterminalName?])
  | giveUp message => exact h.elim

/-- Declared names are identifiers, and none is declared twice. -/
theorem isIdentifier_names (h : Throughout Admissible steps) :
    (∀ name ∈ names steps, Ident.isIdentifier name = true) ∧ (names steps).Nodup := by
  induction steps using List.reverseRecOn with
  | nil => exact ⟨by simp [names, terminalNames, nonterminalNames], .nil⟩
  | append_singleton steps step ih =>
    obtain ⟨hsteps, hstep⟩ := throughout_concat_iff.mp h
    obtain ⟨hident, hnodup⟩ := ih hsteps
    rcases names_concat hstep with hsame | ⟨name, hname, hnew, hperm⟩
    · rw [hsame]
      exact ⟨hident, hnodup⟩
    · refine ⟨fun other hmem => ?_, hperm.nodup_iff.mpr (List.nodup_cons.mpr ⟨hnew, hnodup⟩)⟩
      rcases List.mem_cons.mp (hperm.mem_iff.mp hmem) with rfl | hmem
      · exact hname
      · exact hident other hmem

end Definition

/-! ## Symbols -/

namespace Grammar

variable {g g' : Grammar} {X Y : Symbol}

/-- The symbol is one of the grammar. -/
def HasSymbol (g : Grammar) : Symbol → Prop
  | .terminal t => t < g.terminals.size
  | .nonterminal n => n < g.nonterminals.size

/-- How a symbol of the grammar is written. -/
def label (g : Grammar) : Symbol → String
  | .terminal t => (g.terminals[t]?.map Terminal.text).getD ""
  | .nonterminal n => (g.nonterminals[n]?.map Nonterminal.text).getD ""

theorem terminal_text_eq {t : TerminalId} (h : g.HasSymbol (.terminal t)) :
    ∃ terminal, g.terminal t = .ok terminal ∧ terminal.text = g.label (.terminal t) := by
  have hget : g.terminals[t]? = some g.terminals[t] := Array.getElem?_eq_getElem h
  exact ⟨_, terminal_eq_ok_iff.mpr hget, by rw [label, hget]; rfl⟩

theorem nonterminal_text_eq {n : NonterminalId} (h : g.HasSymbol (.nonterminal n)) :
    ∃ nonterminal, g.nonterminal n = .ok nonterminal ∧
      nonterminal.text = g.label (.nonterminal n) := by
  have hget : g.nonterminals[n]? = some g.nonterminals[n] := Array.getElem?_eq_getElem h
  exact ⟨_, nonterminal_eq_ok_iff.mpr hget, by rw [label, hget]; rfl⟩

/-- A symbol of the grammar has a written form. -/
theorem symbolText_eq (h : g.HasSymbol X) : g.symbolText X = .ok (g.label X) := by
  cases X with
  | terminal t =>
    obtain ⟨terminal, hget, htext⟩ := terminal_text_eq h
    exact bind_eq_ok_iff.mpr ⟨terminal, hget, pure_eq_ok_iff.mpr htext⟩
  | nonterminal n =>
    obtain ⟨nonterminal, hget, htext⟩ := nonterminal_text_eq h
    exact bind_eq_ok_iff.mpr ⟨nonterminal, hget, pure_eq_ok_iff.mpr htext⟩

/-- Both grammars have the same names of terminals and of nonterminals, each kind in its order. -/
structure SameNames (g g' : Grammar) : Prop where
  terminals : g.terminals.toList.map Terminal.name = g'.terminals.toList.map Terminal.name
  nonterminals : g.nonterminals.toList.map Nonterminal.name =
    g'.nonterminals.toList.map Nonterminal.name

/-- Then they write symbols alike. -/
theorem SameNames.label_eq (h : SameNames g g') : g.label = g'.label := by
  funext X
  cases X with
  | terminal t =>
    have hname := congrArg (fun names => (names[t]?.map (·.getD "$eoi")).getD "") h.terminals
    simp only [List.getElem?_map, Array.getElem?_toList, Option.map_map] at hname
    exact hname
  | nonterminal n =>
    have hname := congrArg (fun names => (names[n]?.map (·.getD "$start")).getD "") h.nonterminals
    simp only [List.getElem?_map, Array.getElem?_toList, Option.map_map] at hname
    exact hname

/-- Then they have the same symbols. -/
theorem SameNames.hasSymbol_iff (h : SameNames g g') : g.HasSymbol X ↔ g'.HasSymbol X := by
  have hterminals := congrArg List.length h.terminals
  have hnonterminals := congrArg List.length h.nonterminals
  rw [List.length_map, List.length_map, Array.length_toList, Array.length_toList]
    at hterminals hnonterminals
  cases X with
  | terminal t =>
    show t < g.terminals.size ↔ t < g'.terminals.size
    rw [hterminals]
  | nonterminal n =>
    show n < g.nonterminals.size ↔ n < g'.nonterminals.size
    rw [hnonterminals]

/-- The written forms of all symbols, terminals first. -/
def labels (g : Grammar) : List String :=
  g.terminals.toList.map Terminal.text ++ g.nonterminals.toList.map Nonterminal.text

/-- The place of a symbol among all symbols, terminals first. -/
def place (g : Grammar) : Symbol → Nat
  | .terminal t => t
  | .nonterminal n => g.terminals.size + n

theorem getElem?_labels (h : g.HasSymbol X) : g.labels[g.place X]? = some (g.label X) := by
  cases X with
  | terminal t =>
    have hlt : t < (g.terminals.toList.map Terminal.text).length := by
      rw [List.length_map, Array.length_toList]
      exact h
    have hget : g.terminals[t]? = some g.terminals[t] := Array.getElem?_eq_getElem h
    rw [labels, place, List.getElem?_append_left hlt, List.getElem?_map, Array.getElem?_toList,
      label, hget]
    rfl
  | nonterminal n =>
    have hlength : (g.terminals.toList.map Terminal.text).length = g.terminals.size := by simp
    have hget : g.nonterminals[n]? = some g.nonterminals[n] := Array.getElem?_eq_getElem h
    rw [labels, place, List.getElem?_append_right (by omega), hlength, Nat.add_sub_cancel_left,
      List.getElem?_map, Array.getElem?_toList, label, hget]
    rfl

theorem place_inj (hX : g.HasSymbol X) (hY : g.HasSymbol Y) (h : g.place X = g.place Y) :
    X = Y := by
  cases X with
  | terminal t =>
    have ht : ¬g.terminals.size ≤ t := Nat.not_le.mpr hX
    cases Y with
    | terminal u => exact congrArg Symbol.terminal h
    | nonterminal m =>
      have hplace : g.terminals.size + m = t := h.symm
      omega
  | nonterminal n =>
    cases Y with
    | terminal u =>
      have hu : ¬g.terminals.size ≤ u := Nat.not_le.mpr hY
      have hplace : g.terminals.size + n = u := h
      omega
    | nonterminal m => exact congrArg Symbol.nonterminal (Nat.add_left_cancel h)

/-- Of a described grammar these are the two reserved ones and the declared names. -/
theorem labels_of_describes {steps : List Definition.Step} (h : Definition.Describes steps g) :
    g.labels.Perm ("$eoi" :: "$start" :: Definition.names steps) := by
  have hterminals : g.terminals.toList.map Terminal.text =
      "$eoi" :: Definition.terminalNames steps := by
    have hname := congrArg (List.map (·.getD "$eoi")) h.terminals
    rw [List.map_map] at hname
    exact hname.trans (by simp [Function.comp_def])
  have hnonterminals : g.nonterminals.toList.map Nonterminal.text =
      "$start" :: Definition.nonterminalNames steps := by
    have hname := congrArg (List.map (·.getD "$start")) h.nonterminals
    rw [List.map_map] at hname
    exact hname.trans (by simp [Function.comp_def])
  rw [labels, hterminals, hnonterminals, List.cons_append]
  exact List.perm_middle.cons _

/-- The written forms in a defined grammar can stand as words and are distinct. -/
theorem IsDefined.isPlain_labels (hg : g.IsDefined) :
    (∀ name ∈ g.labels, Ident.IsPlain name) ∧ g.labels.Nodup := by
  obtain ⟨steps, hpasses, hdescribes⟩ := hg.exists_describes
  obtain ⟨hident, hnodup⟩ :=
    Definition.isIdentifier_names (Definition.throughout_admissible_of_passes hpasses)
  have hperm := labels_of_describes hdescribes
  -- the reserved names are no identifiers
  have hreserved {name : String} (hdollar : '$' ∈ name.toList) : name ∉ Definition.names steps := by
    intro hmem
    have hname := hident name hmem
    exact Ident.dollar_not_mem_of_isIdentifier Ident.isStandard_unicode hname hdollar
  refine ⟨fun name hmem => ?_, hperm.nodup_iff.mpr ?_⟩
  · rcases List.mem_cons.mp (hperm.mem_iff.mp hmem) with rfl | hmem
    · exact ⟨by decide, by decide, by decide, by decide⟩
    · rcases List.mem_cons.mp hmem with rfl | hmem
      · exact ⟨by decide, by decide, by decide, by decide⟩
      · exact Ident.isPlain_of_isIdentifier Ident.isStandard_unicode (hident name hmem)
  · simp only [List.nodup_cons, List.mem_cons, not_or]
    exact ⟨⟨by decide, hreserved (by decide)⟩, hreserved (by decide), hnodup⟩

/-- **A symbol is written as one word.** -/
theorem IsDefined.isPlain_label (hg : g.IsDefined) (hX : g.HasSymbol X) :
    Ident.IsPlain (g.label X) :=
  hg.isPlain_labels.1 _ (List.mem_of_getElem? (getElem?_labels hX))

/-- **Different symbols are written differently**, whatever their kinds. -/
theorem IsDefined.label_inj (hg : g.IsDefined) (hX : g.HasSymbol X) (hY : g.HasSymbol Y)
    (h : g.label X = g.label Y) : X = Y := by
  refine place_inj hX hY ?_
  have hlt : g.place X < g.labels.length :=
    (List.getElem?_eq_some_iff.mp (getElem?_labels hX)).choose
  refine (List.getElem?_inj hlt hg.isPlain_labels.2).mp ?_
  rw [getElem?_labels hX, getElem?_labels hY, h]

/-! ## Productions -/

variable {p : ProductionId} {n : NonterminalId} {right α β : List Symbol} {t : TerminalId}

/-- The symbols of a described grammar are the start of the augmented grammar and what the steps
declare. -/
theorem hasSymbol_iff_of_describes {steps : List Definition.Step}
    (h : Definition.Describes steps g) :
    g.HasSymbol X ↔ X = .nonterminal startNonterminal ∨ Definition.Declares steps X := by
  have hterminals := congrArg List.length h.terminals
  have hnonterminals := congrArg List.length h.nonterminals
  simp only [List.length_map, List.length_cons, Array.length_toList] at hterminals hnonterminals
  cases X with
  | terminal t =>
    show t < g.terminals.size ↔ _ ∨ t = endOfInput ∨ t ≤ (Definition.terminalNames steps).length
    rw [hterminals, Nat.lt_succ_iff]
    refine ⟨fun hle => .inr (.inr hle), ?_⟩
    rintro (hstart | rfl | hle)
    · cases hstart
    · exact Nat.zero_le _
    · exact hle
  | nonterminal n =>
    rw [HasSymbol, hnonterminals, Definition.Declares, Nat.lt_succ_iff, Symbol.nonterminal.injEq]
    by_cases hn : n = startNonterminal
    · simp [hn, startNonterminal]
    · simp [hn]

/-- The end of the input is a symbol of every defined grammar. -/
theorem IsDefined.hasSymbol_endOfInput (hg : g.IsDefined) : g.HasSymbol (.terminal endOfInput) := by
  obtain ⟨steps, -, hdescribes⟩ := hg.exists_describes
  exact (hasSymbol_iff_of_describes hdescribes).mpr (.inr (.inl rfl))

/-- Productions are made of symbols of the grammar. -/
theorem IsDefined.hasSymbol_of_expands (hg : g.IsDefined) (h : g.Expands p n right) :
    g.HasSymbol (.nonterminal n) ∧ ∀ X ∈ right, g.HasSymbol X := by
  obtain ⟨steps, hpasses, hdescribes⟩ := hg.exists_describes
  have hchecked := Definition.checked_declared hpasses
  have hdeclared {Y : Symbol} (hY : (Definition.declared steps).hasSymbol Y = true) :
      g.HasSymbol Y := (hasSymbol_iff_of_describes hdescribes).mpr
    (.inr (Definition.hasSymbol_declared_iff.mp hY))
  have hexpands := h
  obtain ⟨production, hp, rfl, rfl⟩ := h
  have hrule : production.toRule ∈ g.productions.toList.map Production.toRule :=
    List.mem_map.mpr ⟨production, Array.mem_toList_iff.mpr (Array.mem_of_getElem? hp), rfl⟩
  rw [hdescribes.productions] at hrule
  rcases List.mem_cons.mp hrule with hstart | hrule
  · obtain ⟨hleft, hright⟩ := Rule.mk.inj hstart
    refine ⟨(hasSymbol_iff_of_describes hdescribes).mpr (.inl (congrArg _ hleft)), fun X hX => ?_⟩
    rw [hright] at hX
    cases List.mem_singleton.mp hX
    obtain ⟨nonterminal, hknown⟩ := hg.wellFormed.known hexpands (hright ▸ hX)
    exact (Array.getElem?_eq_some_iff.mp hknown).choose
  · have hmem := Definition.mem_rules_declared_iff.mpr hrule
    exact ⟨hdeclared (hchecked.left _ hmem), fun X hX =>
      hdeclared (hchecked.right _ hmem X (Array.mem_toList_iff.mp hX))⟩

/-- So are the strings that strings of such symbols derive. -/
theorem IsDefined.hasSymbol_of_derives (hg : g.IsDefined) (h : g.Derives α β)
    (hα : ∀ X ∈ α, g.HasSymbol X) : ∀ X ∈ β, g.HasSymbol X := by
  induction h with
  | refl => exact hα
  | tail _ hstep ih =>
    cases hstep with
    | expand hp pre post =>
      intro X hX
      rcases List.mem_append.mp hX with hX | hX
      · rcases List.mem_append.mp hX with hX | hX
        · exact ih X (List.mem_append_left _ hX)
        · exact (hg.hasSymbol_of_expands hp).2 X hX
      · exact ih X (List.mem_append_right _ (List.mem_cons_of_mem _ hX))

end Grammar

end Lalr
