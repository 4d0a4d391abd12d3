import Lalr.Automaton.Basic
import Lalr.Grammar.Examples
import Lalr.Proofs.Automaton.Reductions
import Lalr.Proofs.Listing
import Mathlib.Data.List.Forall2

/-!
# The listing of an automaton is faithful

Two automata that are listed alike have the same states: as many, and in the
same order the same items and the same transitions (`text_eq_text_iff`). Their
grammars need only have the same names; the rules and their order may differ.

- `Item.entry`, `State.sheet`, `Automaton.sheets`: what the listing shows.
- `Item.IsShownAs`, `State.IsShownAs`: items and states whose text is that of what
  they show.
- `Automaton.IsComplete.exists_sheets`: the listing of an automaton that was built
  never fails, and is that of what it shows.
-/

namespace Lalr

open Grammar

/-! ## Sequences of operations -/

section Sequences

variable {ε α β γ : Type} {as : List α} {bs : List β}

/-- A sequence of operations has a list of results exactly when each of them has its result. -/
theorem mapM_eq_ok_iff {f : α → Except ε β} :
    as.mapM f = .ok bs ↔ List.Forall₂ (fun a b => f a = .ok b) as bs := by
  induction as generalizing bs with
  | nil => rw [List.mapM_nil, pure_eq_ok_iff, List.forall₂_nil_left_iff, eq_comm]
  | cons a as ih =>
    rw [List.mapM_cons, List.forall₂_cons_left_iff]
    constructor
    · intro h
      obtain ⟨b, hb, h⟩ := bind_eq_ok_iff.mp h
      obtain ⟨bs, hbs, h⟩ := bind_eq_ok_iff.mp h
      exact ⟨b, bs, hb, ih.mp hbs, (pure_eq_ok_iff.mp h).symm⟩
    · rintro ⟨b, bs, hb, hbs, rfl⟩
      exact bind_eq_ok_iff.mpr ⟨b, hb, bind_eq_ok_iff.mpr ⟨bs, ih.mpr hbs, rfl⟩⟩

theorem mapM_eq_ok_map {f : α → Except ε β} {k : α → β} (h : ∀ a ∈ as, f a = .ok (k a)) :
    as.mapM f = .ok (as.map k) :=
  mapM_eq_ok_iff.mpr (List.forall₂_map_right_iff.mpr (List.forall₂_same.mpr h))

theorem exists_forall₂ {P : α → β → Prop} (h : ∀ a ∈ as, ∃ b, P a b) :
    ∃ bs, List.Forall₂ P as bs ∧ ∀ b ∈ bs, ∃ a ∈ as, P a b := by
  induction as with
  | nil => exact ⟨[], .nil, by simp⟩
  | cons a as ih =>
    obtain ⟨⟨b, hb⟩, hrest⟩ := List.forall_mem_cons.mp h
    obtain ⟨bs, hbs, hmem⟩ := ih hrest
    refine ⟨b :: bs, .cons hb hbs, List.forall_mem_cons.mpr
      ⟨⟨a, List.mem_cons_self, hb⟩, fun c hc => ?_⟩⟩
    obtain ⟨d, hd, hP⟩ := hmem c hc
    exact ⟨d, List.mem_cons_of_mem _ hd, hP⟩

theorem forall₂_zipIdx {P : α → β → Prop} (h : List.Forall₂ P as bs) (n : Nat) :
    List.Forall₂ (fun x y => P x.1 y.1 ∧ x.2 = y.2) (as.zipIdx n) (bs.zipIdx n) := by
  induction h generalizing n with
  | nil => exact .nil
  | cons hab _ ih => exact .cons ⟨hab, rfl⟩ (ih (n + 1))

end Sequences

/-! ## What a listing shows -/

/-- What the listing shows of an item. -/
def Item.entry (g : Grammar) (item : Item) : Except Fault Entry := do
  let production ← g.production item.core.production
  return ⟨production.toRule, item.core.dot, item.lookahead⟩

/-- What the listing shows of a state. -/
def State.sheet (g : Grammar) (a : Arena) (q : State) : Except Fault Sheet := do
  let entries ← (← q.items.items a).mapM fun item => item.entry g
  return ⟨entries, q.transitions.toList⟩

/-- What the listing shows of an automaton: its states in their order. -/
def Automaton.sheets (g : Grammar) (m : Automaton) : Except Fault (List Sheet) :=
  m.states.toList.mapM fun q => q.sheet g m.arena

variable {g g' : Grammar}

/-! ## Items -/

/-- The item shows `e`, which has symbols of the grammar only. -/
structure Item.IsShownAs (g : Grammar) (item : Item) (e : Entry) : Prop where
  entry_eq : item.entry g = .ok e
  isOver : e.IsOver g.HasSymbol

theorem terminalSetText_eq {s : TerminalSet} (h : ∀ t ∈ s.toList, g.HasSymbol (.terminal t)) :
    g.terminalSetText s = .ok (lookaheadText g.label s) :=
  bind_eq_ok_iff.mpr ⟨_, mapM_eq_ok_map fun t ht => symbolText_eq (h t ht), rfl⟩

namespace Item.IsShownAs

variable {item : Item} {e : Entry}

theorem exists_production (h : item.IsShownAs g e) : ∃ production left,
    g.production item.core.production = .ok production ∧
      g.nonterminal production.left = .ok left ∧
      left.text = g.label (.nonterminal e.rule.left) ∧
      production.right.toList.mapM g.symbolText = .ok (e.labels g.label) ∧
      e = ⟨production.toRule, item.core.dot, item.lookahead⟩ := by
  obtain ⟨production, hproduction, he⟩ := bind_eq_ok_iff.mp h.entry_eq
  cases pure_eq_ok_iff.mp he
  obtain ⟨left, hleft, htext⟩ := nonterminal_text_eq h.isOver.left
  exact ⟨production, left, hproduction, hleft, htext,
    mapM_eq_ok_map fun X hX => symbolText_eq (h.isOver.right X hX), rfl⟩

/-- The text of an item is that of what it shows. -/
theorem text_eq (h : item.IsShownAs g e) : item.text g = .ok (e.text g.label) := by
  obtain ⟨production, left, hproduction, hleft, htext, hright, hrule⟩ := h.exists_production
  have hcore : item.core.text g = .ok (" ".intercalate (e.words g.label)) := by
    refine bind_eq_ok_iff.mpr ⟨production, hproduction, bind_eq_ok_iff.mpr ⟨left, hleft,
      bind_eq_ok_iff.mpr ⟨_, hright, pure_eq_ok_iff.mpr ?_⟩⟩⟩
    have hsign : " := " = " " ++ (":=" ++ " ") := rfl
    rw [htext, Entry.words, String.intercalate_cons_cons, String.intercalate_cons_cons, hsign,
      hrule]
    simp only [String.append_assoc, List.append_assoc, List.cons_append, List.nil_append]
  have hlookahead : item.lookahead = e.lookahead := by rw [hrule]
  refine bind_eq_ok_iff.mpr ⟨_, hcore, bind_eq_ok_iff.mpr
    ⟨_, terminalSetText_eq fun t ht => h.isOver.lookahead t (hlookahead ▸ ht), ?_⟩⟩
  rw [hlookahead]
  rfl

/-- An item is complete if what it shows is. -/
theorem isComplete_eq (h : item.IsShownAs g e) : item.isComplete g = .ok e.isComplete := by
  obtain ⟨production, left, hproduction, -, -, -, rfl⟩ := h.exists_production
  exact bind_eq_ok_iff.mpr ⟨_, bind_eq_ok_iff.mpr ⟨production, hproduction, rfl⟩, rfl⟩

/-- The line of a reduction shows the same item. -/
theorem reductionText_eq (h : item.IsShownAs g e) : (do
    let production ← (← g.production item.core.production).text g
    return "- " ++ production ++ " on [" ++ (← g.terminalSetText item.lookahead) ++ "]\n") =
      (.ok (bullet (e.reductionText g.label) ++ "\n") : Except Fault String) := by
  obtain ⟨production, left, hproduction, hleft, htext, hright, rfl⟩ := h.exists_production
  refine bind_eq_ok_iff.mpr ⟨production, hproduction, bind_eq_ok_iff.mpr ⟨_,
    bind_eq_ok_iff.mpr ⟨left, hleft, bind_eq_ok_iff.mpr ⟨_, hright, rfl⟩⟩,
    bind_eq_ok_iff.mpr ⟨_, terminalSetText_eq h.isOver.lookahead, pure_eq_ok_iff.mpr ?_⟩⟩⟩
  have hend : "]\n" = "]" ++ "\n" := rfl
  rw [htext, hend, bullet, Entry.reductionText]
  simp only [String.append_assoc]

end Item.IsShownAs

/-! ## States -/

/-- The state shows `sheet`, which has symbols of the grammar only, and its section is that of
`sheet`. -/
structure State.IsShownAs (g : Grammar) (a : Arena) (q : State) (sheet : Sheet) : Prop where
  sheet_eq : q.sheet g a = .ok sheet
  isOver : sheet.IsOver g.HasSymbol
  text : ∀ id, q.text g a id = .ok (unlines (sheet.lines g.label id))

/-- A section, put together from its lines. -/
theorem Sheet.unlines_eq {label : Symbol → String} (sheet : Sheet) (id : StateId) :
    unlines (sheet.lines label id) = "#### State " ++ numeral 2 id ++ "\n## items\n"
      ++ String.join (sheet.entries.map fun e => bullet (e.text label) ++ "\n")
      ++ "## transitions\n"
      ++ String.join (sheet.transitions.map fun transition =>
        bullet (transitionText label transition) ++ "\n")
      ++ "## reductions\n"
      ++ String.join (sheet.reductions.map fun e => bullet (e.reductionText label) ++ "\n") := by
  rw [← String.toList_inj, unlines, Sheet.lines]
  simp [String.toList_join, List.flatMap_map]

variable {a : Arena} {q : State} {items : List Item} {entries : List Entry}

/-- The complete items are those that show complete ones. -/
theorem State.exists_reductions_eq (hitems : q.items.items a = .ok items)
    (hshown : ∀ item ∈ items, ∃ e, item.IsShownAs g e)
    (hentries : List.Forall₂ (Item.IsShownAs g) items entries) :
    ∃ complete : List Item,
      q.reductions g a = .ok (complete.map fun item => (item.core.production, item.lookahead)) ∧
        List.Forall₂ (Item.IsShownAs g) complete (entries.filter Entry.isComplete) := by
  let isEnd (item : Item) : Bool := (item.isComplete g).toOption.getD false
  have hend {item : Item} {e : Entry} (h : item.IsShownAs g e) : isEnd item = e.isComplete := by
    simp [isEnd, h.isComplete_eq, Except.toOption]
  refine ⟨items.filter isEnd, State.reductions_eq hitems fun item hitem => ?_,
    List.rel_filter (fun item e h => ?_) hentries⟩
  · obtain ⟨e, h⟩ := hshown item hitem
    rw [h.isComplete_eq, hend h]
  · show isEnd item = true ↔ e.isComplete = true
    rw [hend h]

/-- A state is shown if all its items are, and its transitions are on symbols of the grammar. -/
theorem State.exists_isShownAs (hitems : q.items.items a = .ok items)
    (hshown : ∀ item ∈ items, ∃ e, item.IsShownAs g e)
    (htransitions : ∀ transition ∈ q.transitions.toList, g.HasSymbol transition.1) :
    ∃ sheet, q.IsShownAs g a sheet := by
  obtain ⟨entries, hentries, hmem⟩ := exists_forall₂ hshown
  obtain ⟨complete, hreductions, hcomplete⟩ := exists_reductions_eq hitems hshown hentries
  refine ⟨⟨entries, q.transitions.toList⟩, ?_, ⟨fun e he => ?_, htransitions⟩, fun id => ?_⟩
  · exact bind_eq_ok_iff.mpr ⟨items, hitems, bind_eq_ok_iff.mpr
      ⟨entries, mapM_eq_ok_iff.mpr (hentries.imp fun _ _ h => h.entry_eq), rfl⟩⟩
  · obtain ⟨item, -, h⟩ := hmem e he
    exact h.isOver
  · rw [Sheet.unlines_eq]
    refine bind_eq_ok_iff.mpr ⟨items, hitems, bind_eq_ok_iff.mpr ⟨_, ?items,
      bind_eq_ok_iff.mpr ⟨_, ?transitions, bind_eq_ok_iff.mpr ⟨_, hreductions,
        bind_eq_ok_iff.mpr ⟨_, ?reductions, rfl⟩⟩⟩⟩⟩
    case items =>
      refine mapM_eq_ok_iff.mpr (List.forall₂_map_right_iff.mpr (hentries.imp ?_))
      intro item e h
      exact bind_eq_ok_iff.mpr ⟨_, h.text_eq, rfl⟩
    case transitions =>
      refine mapM_eq_ok_map fun transition hmem => bind_eq_ok_iff.mpr
        ⟨_, symbolText_eq (htransitions transition hmem), pure_eq_ok_iff.mpr ?_⟩
      simp only [bullet, transitionText, String.append_assoc]
    case reductions =>
      refine mapM_eq_ok_iff.mpr (List.forall₂_map_right_iff.mpr
        (List.forall₂_map_left_iff.mpr (hcomplete.imp ?_)))
      intro item e h
      exact h.reductionText_eq

/-! ## Automata -/

namespace Grammar

variable {x : Dotted} {X : Symbol} {γ β : List Symbol} {t : TerminalId}

/-- What stands after a marker is a symbol of the grammar. -/
theorem IsDefined.hasSymbol_of_after (hg : g.IsDefined) (h : g.After x X β) :
    ∀ Y ∈ X :: β, g.HasSymbol Y := by
  obtain ⟨n, right, hp, hdrop⟩ := h
  exact fun Y hY => (hg.hasSymbol_of_expands hp).2 Y (List.mem_of_mem_drop (hdrop ▸ hY))

/-- Items are valid on terminals of the grammar only. -/
theorem IsDefined.hasSymbol_of_lr1Valid (hg : g.IsDefined) (h : g.Lr1Valid γ x t) :
    g.HasSymbol (.terminal t) := by
  induction h with
  | start => exact hg.hasSymbol_endOfInput
  | first _ hp hu =>
    obtain ⟨n, right, hafter, -⟩ := hp
    obtain ⟨rest, hderives⟩ := hu
    have hβ := List.forall_mem_cons.mp (hg.hasSymbol_of_after hafter)
    exact hg.hasSymbol_of_derives hderives hβ.2 _ List.mem_cons_self
  | inherit _ _ _ ih => exact ih
  | shift _ _ ih => exact ih

end Grammar

namespace Automaton.IsComplete

variable {m : Automaton} {i : StateId} {q : State}

/-- An item of a state is shown. -/
theorem exists_entry (hg : g.IsDefined) (hm : m.IsComplete g) (hq : m.states[i]? = some q)
    {item : Item} {k : ItemId} (hk : (item.core, k) ∈ q.items.toList)
    (hget : m.arena[k]? = some item) : ∃ e, item.IsShownAs g e := by
  have hi := getElem?_sets_of_getElem? hq
  obtain ⟨n, right, hp, hle⟩ :=
    hm.collection.expands_of_has hg.wellFormed hi (ItemSet.has_of_mem hk)
  obtain ⟨hleft, hright⟩ := hg.hasSymbol_of_expands hp
  obtain ⟨production, hproduction, rfl, rfl⟩ := hp
  refine ⟨⟨production.toRule, item.core.dot, item.lookahead⟩, ?_, hleft, hright, hle,
    fun t ht => ?_⟩
  · exact bind_eq_ok_iff.mpr ⟨production, production_eq_ok_iff.mpr hproduction, rfl⟩
  · have hlooks := (Arena.looks_iff hget).mpr (BitSet.mem_toList.mp ht)
    obtain ⟨γ, -, hvalid⟩ := (hm.looks_iff_lr1Valid hi hk).mp hlooks
    exact hg.hasSymbol_of_lr1Valid hvalid

/-- A state is shown. -/
theorem exists_sheet (hg : g.IsDefined) (hm : m.IsComplete g) (hq : m.states[i]? = some q) :
    ∃ sheet, q.IsShownAs g m.arena sheet := by
  have hi := getElem?_sets_of_getElem? hq
  obtain ⟨items, hitems, -, hmem⟩ := (hm.collection.closed hi).isOver.exists_items
  refine State.exists_isShownAs hitems (fun item hitem => ?_) fun transition htransition => ?_
  · obtain ⟨k, hk, hget⟩ := (hmem item).mp hitem
    exact hm.exists_entry hg hq hk hget
  · have hgoes : m.Goes i transition.1 transition.2 := ⟨q, hq, htransition⟩
    obtain ⟨x, β, -, hafter⟩ := hm.collection.awaits hi hgoes
    exact hg.hasSymbol_of_after hafter _ List.mem_cons_self

/-- **An automaton can be listed**, and its listing is that of what it shows. -/
theorem exists_sheets (hg : g.IsDefined) (hm : m.IsComplete g) : ∃ sheets,
    m.sheets g = .ok sheets ∧ (∀ sheet ∈ sheets, sheet.IsOver g.HasSymbol) ∧
      m.text g = .ok (listing g.label sheets) := by
  have hshown (q : State) (hq : q ∈ m.states.toList) :
      ∃ sheet, q.IsShownAs g m.arena sheet := by
    obtain ⟨i, hi⟩ := List.mem_iff_getElem?.mp hq
    exact hm.exists_sheet hg (Array.getElem?_toList ▸ hi)
  obtain ⟨sheets, hsheets, hmem⟩ := exists_forall₂ hshown
  refine ⟨sheets, mapM_eq_ok_iff.mpr (hsheets.imp fun _ _ h => h.sheet_eq), fun sheet hsheet => ?_,
    bind_eq_ok_iff.mpr ⟨_, ?_, rfl⟩⟩
  · obtain ⟨q, -, h⟩ := hmem sheet hsheet
    exact h.isOver
  · refine mapM_eq_ok_iff.mpr (List.forall₂_map_right_iff.mpr
      (List.forall₂_map_right_iff.mpr ((forall₂_zipIdx hsheets 0).imp ?_)))
    rintro ⟨q, id⟩ ⟨sheet, id'⟩ ⟨h, rfl⟩
    exact h.text id

end Automaton.IsComplete

/-- **Listings are faithful**: of two grammars with the same names, automata are listed alike
exactly when they show the same, state by state and in the same order: the same items, each with its
rule, its marker and its lookahead, and the same transitions. -/
theorem text_eq_text_iff {limit limit' : Option Nat} {m m' : Automaton} (hg : g.IsDefined)
    (hg' : g'.IsDefined) (hnames : SameNames g g') (hm : Automaton.build g limit = .ok m)
    (hm' : Automaton.build g' limit' = .ok m') : ∃ text text' sheets sheets',
      m.text g = .ok text ∧ m'.text g' = .ok text' ∧
      m.sheets g = .ok sheets ∧ m'.sheets g' = .ok sheets' ∧ (text = text' ↔ sheets = sheets') := by
  have hc := Automaton.isComplete_of_build hg.wellFormed hm
  have hc' := Automaton.isComplete_of_build hg'.wellFormed hm'
  obtain ⟨sheets, hsheets, hover, htext⟩ := hc.exists_sheets hg
  obtain ⟨sheets', hsheets', hover', htext'⟩ := hc'.exists_sheets hg'
  have hsame : g'.HasSymbol = g.HasSymbol := funext fun X => propext hnames.hasSymbol_iff.symm
  have hlabelling : IsLabelling g.label g.HasSymbol := ⟨hg.isPlain_label, hg.label_inj⟩
  rw [hsame] at hover'
  rw [← hnames.label_eq] at htext'
  refine ⟨_, _, sheets, sheets', htext, htext', hsheets, hsheets', ?_, fun heq => heq ▸ rfl⟩
  exact listing_inj hlabelling hover hover'

/-- The assignments through pointers and those with their rules in the opposite order have the same
names, but their listings are different: the first state shows the two rules of `S` in different
orders. -/
theorem text_ne_text_pointer : ∃ g g' m m' text text', Grammar.define Examples.pointer = .ok g ∧
    Grammar.define Examples.pointerReversed = .ok g' ∧ SameNames g g' ∧
    Automaton.build g none = .ok m ∧ Automaton.build g' none = .ok m' ∧
    m.text g = .ok text ∧ m'.text g' = .ok text' ∧ text ≠ text' := by
  let terminals : List (Option String) := [none, "EQUAL", "STAR", "ID"]
  let nonterminals : List (Option String) := [none, "S", "L", "R"]
  let second (sheets : List Sheet) : Option Rule :=
    sheets.head?.bind fun sheet => sheet.entries[1]?.map Entry.rule
  let shows (rule : Rule) (g : Grammar) (m : Automaton) : Bool :=
    g.terminals.toList.map Terminal.name == terminals &&
      g.nonterminals.toList.map Nonterminal.name == nonterminals &&
      (m.sheets g).toOption.bind second == some rule
  obtain ⟨g, m, hg, hm, hcheck⟩ := exists_build_of_check Examples.pointer
    (shows ⟨1, #[.nonterminal 2, .terminal 1, .nonterminal 3]⟩) (by decide +kernel)
  obtain ⟨g', m', hg', hm', hcheck'⟩ := exists_build_of_check Examples.pointerReversed
    (shows ⟨1, #[.nonterminal 3]⟩) (by decide +kernel)
  simp only [shows, Bool.and_eq_true, beq_iff_eq] at hcheck hcheck'
  obtain ⟨⟨hterminals, hnonterminals⟩, hsecond⟩ := hcheck
  obtain ⟨⟨hterminals', hnonterminals'⟩, hsecond'⟩ := hcheck'
  have hnames : SameNames g g' :=
    ⟨hterminals.trans hterminals'.symm, hnonterminals.trans hnonterminals'.symm⟩
  obtain ⟨text, text', sheets, sheets', htext, htext', hsheets, hsheets', hiff⟩ :=
    text_eq_text_iff (.of_define hg) (.of_define hg') hnames hm hm'
  refine ⟨g, g', m, m', text, text', hg, hg', hnames, hm, hm', htext, htext', fun heq => ?_⟩
  rw [hsheets] at hsecond
  rw [hsheets', ← hiff.mp heq] at hsecond'
  exact absurd (hsecond.symm.trans hsecond') (by decide)

end Lalr
