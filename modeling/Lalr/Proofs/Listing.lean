import Lalr.Grammar.Basic
import Lalr.Proofs.Delimited
import Lalr.Proofs.Grammar.Names

/-!
# Listings

The listing of an automaton shows of every state its items, its transitions and
its reductions. Here a listing is put together from just what it shows, with any
labels for the symbols. If the labels are distinct words, then a listing can be
read back (`listing_inj`).

- `Entry`, `Sheet`: what is shown of an item and of a state.
- `IsLabelling`: labels that can be read back.
- `Entry.text_inj`: an item can be read off its text. Blanks separate words, two
  of them end the core, and the point is a word that is no label.
- `Sheet.lines_inj`: a state can be read off its lines. The lines of items and
  transitions begin with a dash, the headings do not.
-/

namespace Lalr

/-- What is shown of an item: the rule of its production, the number of symbols before the marker,
and the lookahead. -/
structure Entry where
  rule : Rule
  dot : UInt16
  lookahead : TerminalSet
deriving DecidableEq, Repr

/-- What is shown of a state: its items and its transitions, in their order. -/
structure Sheet where
  entries : List Entry
  transitions : List (Symbol × StateId)
deriving DecidableEq, Repr

/-! ## Texts -/

section Texts

variable (label : Symbol → String)

/-- The terminals of a lookahead with blanks between them. -/
def lookaheadText (lookahead : TerminalSet) : String :=
  " ".intercalate (lookahead.toList.map fun t => label (.terminal t))

namespace Entry

/-- The labels of the right-hand side. -/
def labels (e : Entry) : List String := e.rule.right.toList.map label

/-- The words of the core. -/
def words (e : Entry) : List String :=
  label (.nonterminal e.rule.left) :: ":=" :: "[" ::
    ((e.labels label).take e.dot.toNat ++ "." :: ((e.labels label).drop e.dot.toNat ++ ["]"]))

/-- The core, followed by the lookahead in square brackets. -/
def text (e : Entry) : String :=
  " ".intercalate (e.words label) ++ "  [" ++ lookaheadText label e.lookahead ++ "]"

/-- No symbol stands after the marker. -/
def isComplete (e : Entry) : Bool := e.rule.right[e.dot.toNat]?.isNone

/-- The production, followed by the lookahead on which it is reduced. -/
def reductionText (e : Entry) : String :=
  label (.nonterminal e.rule.left) ++ " := " ++
    (if (e.labels label).isEmpty then "ε" else " ".intercalate (e.labels label)) ++ " on [" ++
    lookaheadText label e.lookahead ++ "]"

end Entry

/-- A transition. -/
def transitionText (transition : Symbol × StateId) : String :=
  label transition.1 ++ " => " ++ numeral 2 transition.2

/-- A line of a section that is no heading. -/
def bullet (text : String) : String := "- " ++ text

namespace Sheet

/-- The reductions of a state: its complete items. -/
def reductions (sheet : Sheet) : List Entry := sheet.entries.filter Entry.isComplete

/-- The lines of the section of a state. -/
def lines (sheet : Sheet) (id : StateId) : List String :=
  ("#### State " ++ numeral 2 id) :: "## items" ::
    (sheet.entries.map (fun e => bullet (e.text label)) ++ "## transitions" ::
      (sheet.transitions.map (fun transition => bullet (transitionText label transition)) ++
        "## reductions" :: sheet.reductions.map fun e => bullet (e.reductionText label)))

end Sheet

/-- The listing: a section for each state, with an empty line between two sections. -/
def listing (sheets : List Sheet) : String :=
  "\n".intercalate ((sheets.zipIdx.map fun (sheet, id) => sheet.lines label id).map unlines)

end Texts

/-! ## Labels -/

/-- The labels of the symbols in question are distinct words. -/
structure IsLabelling (label : Symbol → String) (known : Symbol → Prop) : Prop where
  plain : ∀ {X}, known X → Ident.IsPlain (label X)
  inj : ∀ {X Y}, known X → known Y → label X = label Y → X = Y

/-- An item of a rule with known symbols: the marker stands in the right-hand side, and the
lookahead is known, too. -/
structure Entry.IsOver (known : Symbol → Prop) (e : Entry) : Prop where
  left : known (.nonterminal e.rule.left)
  right : ∀ X ∈ e.rule.right.toList, known X
  dot_le : e.dot.toNat ≤ e.rule.right.toList.length
  lookahead : ∀ t ∈ e.lookahead.toList, known (.terminal t)

/-- A state of such items whose transitions are on known symbols. -/
structure Sheet.IsOver (known : Symbol → Prop) (sheet : Sheet) : Prop where
  entries : ∀ e ∈ sheet.entries, e.IsOver known
  transitions : ∀ transition ∈ sheet.transitions, known transition.1

variable {label : Symbol → String} {known : Symbol → Prop}

/-- Lists are equal if a function tells their members apart and maps them to equal lists. -/
theorem eq_of_map_eq {α β : Type} {f : α → β} {as bs : List α}
    (h : ∀ a ∈ as, ∀ b ∈ bs, f a = f b → a = b) (heq : as.map f = bs.map f) : as = bs := by
  induction as generalizing bs with
  | nil => exact (List.map_eq_nil_iff.mp heq.symm).symm
  | cons a as ih => cases bs with
    | nil => cases heq
    | cons b bs =>
      obtain ⟨hhead, htail⟩ := List.cons.inj heq
      rw [h a List.mem_cons_self b List.mem_cons_self hhead,
        ih (fun c hc d hd => h c (List.mem_cons_of_mem _ hc) d (List.mem_cons_of_mem _ hd)) htail]

theorem IsLabelling.eq_of_map_eq (h : IsLabelling label known) {as bs : List Symbol}
    (has : ∀ X ∈ as, known X) (hbs : ∀ X ∈ bs, known X) (heq : as.map label = bs.map label) :
    as = bs :=
  Lalr.eq_of_map_eq (fun X hX Y hY => h.inj (has X hX) (hbs Y hY)) heq

/-- Words of a text, as lists of characters. -/
theorem isWord_of_isPlain {name : String} (h : Ident.IsPlain name) : IsWord ' ' name.toList :=
  ⟨fun hnil => h.ne_empty (String.toList_eq_nil_iff.mp hnil), h.blank⟩

/-! ## Items -/

/-- A lookahead can be read off. -/
theorem lookaheadText_inj (h : IsLabelling label known) {s t : TerminalSet}
    (hs : ∀ u ∈ s.toList, known (.terminal u)) (ht : ∀ u ∈ t.toList, known (.terminal u))
    (heq : lookaheadText label s = lookaheadText label t) : s = t := by
  have hwords {s : TerminalSet} (hs : ∀ u ∈ s.toList, known (.terminal u)) :
      ∀ word ∈ s.toList.map fun u => label (.terminal u), IsWord ' ' word.toList :=
    List.forall_mem_map.mpr fun u hu => isWord_of_isPlain (h.plain (hs u hu))
  have hnames := intercalate_blank_inj (hwords hs) (hwords ht) heq
  have hlist : s.toList = t.toList := eq_of_map_eq
    (fun u hu v hv huv => Symbol.terminal.inj (h.inj (hs u hu) (ht v hv) huv)) hnames
  exact BitSet.ext fun u => by rw [← BitSet.mem_toList, hlist, BitSet.mem_toList]

namespace Entry

variable {e e' : Entry}

theorem isPlain_labels (h : IsLabelling label known) (he : e.IsOver known) :
    ∀ name ∈ e.labels label, Ident.IsPlain name :=
  List.forall_mem_map.mpr fun X hX => h.plain (he.right X hX)

/-- The words that are no labels. -/
def marks : List String := [":=", "[", ".", "]"]

theorem mem_words (h : IsLabelling label known) (he : e.IsOver known) {word : String}
    (hmem : word ∈ e.words label) : Ident.IsPlain word ∨ word ∈ marks := by
  have hlabels := isPlain_labels h he
  simp only [words, List.mem_cons, List.mem_append, List.not_mem_nil, or_false] at hmem
  rcases hmem with rfl | rfl | rfl | hmem | rfl | hmem | rfl
  · exact .inl (h.plain he.left)
  · exact .inr (by decide)
  · exact .inr (by decide)
  · exact .inl (hlabels word (List.mem_of_mem_take hmem))
  · exact .inr (by decide)
  · exact .inl (hlabels word (List.mem_of_mem_drop hmem))
  · exact .inr (by decide)

theorem isWord_words (h : IsLabelling label known) (he : e.IsOver known) :
    ∀ word ∈ e.words label, IsWord ' ' word.toList := by
  have hmarks : ∀ word ∈ marks, word.toList ≠ [] ∧ ' ' ∉ word.toList := by simp [marks]
  exact fun word hmem => (mem_words h he hmem).elim isWord_of_isPlain (hmarks word)

/-- The rule and the marker can be read off the words of the core. -/
theorem words_inj (h : IsLabelling label known) (he : e.IsOver known) (he' : e'.IsOver known)
    (heq : e.words label = e'.words label) : e.rule = e'.rule ∧ e.dot = e'.dot := by
  have hpoint {e : Entry} (he : e.IsOver known) : "." ∉ (e.labels label).take e.dot.toNat :=
    fun hmem => (isPlain_labels h he _ (List.mem_of_mem_take hmem)).point List.mem_cons_self
  have hlength {e : Entry} (he : e.IsOver known) :
      ((e.labels label).take e.dot.toNat).length = e.dot.toNat := by
    rw [List.length_take, labels, List.length_map]
    exact Nat.min_eq_left he.dot_le
  simp only [words, List.cons.injEq, true_and] at heq
  obtain ⟨hleft, hright⟩ := heq
  obtain ⟨htake, hdrop⟩ := append_cons_inj (hpoint he) (hpoint he') hright
  have hlabels : e.labels label = e'.labels label := by
    rw [← List.take_append_drop e.dot.toNat (e.labels label), htake,
      List.append_cancel_right hdrop, List.take_append_drop]
  constructor
  · have hsame := h.eq_of_map_eq he.right he'.right hlabels
    have hleft := Symbol.nonterminal.inj (h.inj he.left he'.left hleft)
    exact congrArg₂ Rule.mk hleft (Array.toList_inj.mp hsame)
  · rw [← UInt16.toNat_inj, ← hlength he, htake, hlength he']

theorem text_eq (e : Entry) : e.text label =
    " ".intercalate (e.words label) ++ "  " ++ ("[" ++ lookaheadText label e.lookahead ++ "]") := by
  have hblanks : "  [" = "  " ++ "[" := rfl
  simp only [text, hblanks, String.append_assoc]

/-- **An item can be read off its text.** -/
theorem text_inj (h : IsLabelling label known) (he : e.IsOver known) (he' : e'.IsOver known)
    (heq : e.text label = e'.text label) : e = e' := by
  rw [text_eq, text_eq] at heq
  obtain ⟨hwords, hlookahead⟩ := intercalate_blank_append_inj (isWord_words h he)
    (isWord_words h he') (List.cons_ne_nil _ _) (List.cons_ne_nil _ _) heq
  obtain ⟨hrule, hdot⟩ := words_inj h he he' hwords
  have hlookahead : e.lookahead = e'.lookahead :=
    lookaheadText_inj h he.lookahead he'.lookahead (by simpa using hlookahead)
  obtain ⟨rule, dot, lookahead⟩ := e
  obtain ⟨rule', dot', lookahead'⟩ := e'
  rw [Entry.mk.injEq]
  exact ⟨hrule, hdot, hlookahead⟩

end Entry

/-! ## States -/

/-- A transition can be read off its text. -/
theorem transitionText_inj (h : IsLabelling label known) {x y : Symbol × StateId}
    (hx : known x.1) (hy : known y.1) (heq : transitionText label x = transitionText label y) :
    x = y := by
  have hchars (x : Symbol × StateId) : (transitionText label x).toList =
      (label x.1).toList ++ ' ' :: ("=> " ++ numeral 2 x.2).toList := by
    rw [transitionText, String.toList_append, String.toList_append, String.toList_append,
      List.append_assoc]
    rfl
  have heq := congrArg String.toList heq
  rw [hchars, hchars] at heq
  obtain ⟨hsymbol, htarget⟩ := append_cons_inj (h.plain hx).blank (h.plain hy).blank heq
  rw [String.toList_inj, String.append_right_inj] at htarget
  exact Prod.ext (h.inj hx hy (String.toList_inj.mp hsymbol)) (numeral_inj htarget)

theorem bullet_inj {s t : String} (h : bullet s = bullet t) : s = t :=
  (String.append_right_inj "- ").mp h

/-- No line with a dash is a heading. -/
theorem heading_not_mem_bullets {α : Type} {heading : String} {f : α → String} {as : List α}
    (h : heading.toList.head? = some '#') : heading ∉ as.map fun a => bullet (f a) := by
  intro hmem
  obtain ⟨a, -, rfl⟩ := List.mem_map.mp hmem
  rw [bullet, String.toList_append] at h
  cases h

namespace Sheet

variable {sheet sheet' : Sheet} {id id' : StateId}

/-- **A state can be read off its lines.** -/
theorem lines_inj (h : IsLabelling label known) (hs : sheet.IsOver known)
    (hs' : sheet'.IsOver known) (heq : sheet.lines label id = sheet'.lines label id') :
    id = id' ∧ sheet = sheet' := by
  simp only [lines, List.cons.injEq, true_and] at heq
  obtain ⟨hid, hrest⟩ := heq
  obtain ⟨hentries, hrest⟩ := append_cons_inj (heading_not_mem_bullets rfl)
    (heading_not_mem_bullets rfl) hrest
  obtain ⟨htransitions, -⟩ := append_cons_inj (heading_not_mem_bullets rfl)
    (heading_not_mem_bullets rfl) hrest
  have hentries : sheet.entries = sheet'.entries := eq_of_map_eq (fun e he e' he' hee' =>
    Entry.text_inj h (hs.entries e he) (hs'.entries e' he') (bullet_inj hee')) hentries
  have htransitions : sheet.transitions = sheet'.transitions := eq_of_map_eq (fun x hx y hy hxy =>
    transitionText_inj h (hs.transitions x hx) (hs'.transitions y hy) (bullet_inj hxy)) htransitions
  refine ⟨numeral_inj ((String.append_right_inj "#### State ").mp hid), ?_⟩
  obtain ⟨entries, transitions⟩ := sheet
  obtain ⟨entries', transitions'⟩ := sheet'
  rw [Sheet.mk.injEq]
  exact ⟨hentries, htransitions⟩

end Sheet

/-! ## Lines -/

theorem isLine_lookaheadText (h : IsLabelling label known) {s : TerminalSet}
    (hs : ∀ u ∈ s.toList, known (.terminal u)) : IsLine (lookaheadText label s) :=
  isLine_intercalate (by decide) (List.forall_mem_map.mpr fun u hu => (h.plain (hs u hu)).newline)

namespace Entry

variable {e : Entry}

theorem isLine_text (h : IsLabelling label known) (he : e.IsOver known) :
    IsLine (e.text label) := by
  have hmarks : ∀ word ∈ marks, IsLine word := by simp [marks, IsLine]
  have hwords : IsLine (" ".intercalate (e.words label)) :=
    isLine_intercalate (by decide) fun word hmem =>
      (mem_words h he hmem).elim Ident.IsPlain.newline (hmarks word)
  simp only [text, isLine_append_iff]
  exact ⟨⟨⟨hwords, by decide⟩, isLine_lookaheadText h he.lookahead⟩, by decide⟩

theorem isLine_reductionText (h : IsLabelling label known) (he : e.IsOver known) :
    IsLine (e.reductionText label) := by
  have hlabels : IsLine (" ".intercalate (e.labels label)) :=
    isLine_intercalate (by decide) fun name hmem => (isPlain_labels h he name hmem).newline
  have hright :
      IsLine (if (e.labels label).isEmpty then "ε" else " ".intercalate (e.labels label)) := by
    split
    · decide
    · exact hlabels
  simp only [reductionText, isLine_append_iff]
  exact ⟨⟨⟨⟨⟨(h.plain he.left).newline, by decide⟩, hright⟩, by decide⟩,
    isLine_lookaheadText h he.lookahead⟩, by decide⟩

end Entry

theorem isLine_transitionText (h : IsLabelling label known) {transition : Symbol × StateId}
    (hknown : known transition.1) : IsLine (transitionText label transition) := by
  simp only [transitionText, isLine_append_iff]
  exact ⟨⟨(h.plain hknown).newline, by decide⟩, isLine_numeral _ _⟩

/-- The lines of a state are lines, and none is empty. -/
theorem Sheet.isSection_lines (h : IsLabelling label known) {sheet : Sheet}
    (hs : sheet.IsOver known) (id : StateId) : IsSection (sheet.lines label id) := by
  have hbullet {text : String} (htext : IsLine text) : bullet text ≠ "" ∧ IsLine (bullet text) := by
    rw [bullet, isLine_append_iff]
    exact ⟨by simp, by decide, htext⟩
  refine ⟨List.cons_ne_nil _ _, ?_⟩
  simp only [lines, List.forall_mem_cons, List.forall_mem_append, List.forall_mem_map]
  refine ⟨⟨by simp, ?_⟩, ⟨by decide, by decide⟩,
    fun e he => hbullet (Entry.isLine_text h (hs.entries e he)), ⟨by decide, by decide⟩,
    fun x hx => hbullet (isLine_transitionText h (hs.transitions x hx)), ⟨by decide, by decide⟩,
    fun e he => hbullet (Entry.isLine_reductionText h (hs.entries e (List.mem_of_mem_filter he)))⟩
  rw [isLine_append_iff]
  exact ⟨by decide, isLine_numeral 2 id⟩

/-- **A listing can be read back.** -/
theorem listing_inj (h : IsLabelling label known) {sheets sheets' : List Sheet}
    (hs : ∀ sheet ∈ sheets, sheet.IsOver known) (hs' : ∀ sheet ∈ sheets', sheet.IsOver known)
    (heq : listing label sheets = listing label sheets') : sheets = sheets' := by
  have hsections {sheets : List Sheet} (hs : ∀ sheet ∈ sheets, sheet.IsOver known) :
      ∀ lines ∈ sheets.zipIdx.map fun (sheet, id) => sheet.lines label id, IsSection lines :=
    List.forall_mem_map.mpr fun (sheet, id) hmem =>
      sheet.isSection_lines h (hs sheet (List.fst_mem_of_mem_zipIdx hmem)) id
  have hlines := intercalate_unlines_inj (hsections hs) (hsections hs') heq
  have hnumbered : sheets.zipIdx = sheets'.zipIdx := by
    refine eq_of_map_eq (fun x hx y hy hxy => ?_) hlines
    obtain ⟨hid, hsheet⟩ := Sheet.lines_inj h (hs x.1 (List.fst_mem_of_mem_zipIdx hx))
      (hs' y.1 (List.fst_mem_of_mem_zipIdx hy)) hxy
    exact Prod.ext hsheet hid
  simpa using congrArg (List.map Prod.fst) hnumbered

end Lalr
