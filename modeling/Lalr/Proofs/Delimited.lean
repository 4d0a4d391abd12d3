import Lalr.Symbol
import Mathlib.Data.List.Basic

/-!
# Words and separators

Texts are put together from words with separators behind or between them. If the
separator stands in no word, the words can be read off again.

- `terminated`: each word with the separator behind it (`terminated_inj`).
- `terminated_append_cons_inj`: words none of which is empty end at the first
  separator where a word should begin. So a list of lists of words can be read
  off as well (`terminated_map_inj`).
- `terminated_eq_of_intercalate_eq`: the same holds of separators between words.
- `intercalate_blank_append_inj`, `intercalate_unlines_inj`: words of a string,
  and lines of a text with empty lines between its sections.
- `numeral_inj`: a number can be read off its digits.
-/

namespace Lalr

section Terminated

variable {α : Type} {sep : α} {x y s t word : List α} {words words' : List (List α)}

/-- What stands before and behind the first separator is determined. -/
theorem append_cons_inj (hx : sep ∉ x) (hy : sep ∉ y) (h : x ++ sep :: s = y ++ sep :: t) :
    x = y ∧ s = t := by
  induction x generalizing y with
  | nil =>
    cases y with
    | nil => exact ⟨rfl, (List.cons.inj h).2⟩
    | cons b y =>
      obtain ⟨hsep, -⟩ := List.cons.inj h
      exact absurd (hsep ▸ List.mem_cons_self) hy
  | cons a x ih =>
    rw [List.mem_cons, not_or] at hx
    cases y with
    | nil =>
      obtain ⟨hsep, -⟩ := List.cons.inj h
      exact absurd hsep.symm hx.1
    | cons b y =>
      obtain ⟨rfl, hrest⟩ := List.cons.inj h
      obtain ⟨rfl, hst⟩ := ih hx.2 (List.not_mem_of_not_mem_cons hy) hrest
      exact ⟨rfl, hst⟩

/-- The words one after the other, each with the separator behind it. -/
def terminated (sep : α) (words : List (List α)) : List α := words.flatMap (· ++ [sep])

@[simp] theorem terminated_nil : terminated sep [] = [] := rfl

@[simp] theorem terminated_cons :
    terminated sep (word :: words) = word ++ sep :: terminated sep words := by
  rw [terminated, List.flatMap_cons, List.append_assoc, List.singleton_append]
  rfl

/-- Words without the separator can be read off. -/
theorem terminated_inj (h : ∀ word ∈ words, sep ∉ word) (h' : ∀ word ∈ words', sep ∉ word)
    (heq : terminated sep words = terminated sep words') : words = words' := by
  induction words generalizing words' with
  | nil => cases words' with
    | nil => rfl
    | cons word' words' => simp at heq
  | cons word words ih => cases words' with
    | nil => simp at heq
    | cons word' words' =>
      rw [List.forall_mem_cons] at h h'
      rw [terminated_cons, terminated_cons] at heq
      obtain ⟨rfl, hrest⟩ := append_cons_inj h.1 h'.1 heq
      rw [ih h.2 h'.2 hrest]

/-- A word that may stand in a list that ends with an empty word. -/
def IsWord (sep : α) (word : List α) : Prop := word ≠ [] ∧ sep ∉ word

/-- A list of words ends where a word should begin and the separator stands. -/
theorem terminated_append_cons_inj (h : ∀ word ∈ words, IsWord sep word)
    (h' : ∀ word ∈ words', IsWord sep word)
    (heq : terminated sep words ++ sep :: s = terminated sep words' ++ sep :: t) :
    words = words' ∧ s = t := by
  -- no word begins with the separator
  have hfirst {word rest s : List α} (hword : IsWord sep word) : sep :: s ≠ word ++ rest := by
    obtain ⟨a, word, rfl⟩ := List.exists_cons_of_ne_nil hword.1
    intro hcons
    exact hword.2 ((List.cons.inj hcons).1 ▸ List.mem_cons_self)
  induction words generalizing words' with
  | nil => cases words' with
    | nil => exact ⟨rfl, (List.cons.inj heq).2⟩
    | cons word' words' =>
      rw [terminated_nil, terminated_cons, List.nil_append, List.append_assoc] at heq
      exact absurd heq (hfirst (h' word' List.mem_cons_self))
  | cons word words ih => cases words' with
    | nil =>
      rw [terminated_nil, terminated_cons, List.nil_append, List.append_assoc] at heq
      exact absurd heq.symm (hfirst (h word List.mem_cons_self))
    | cons word' words' =>
      rw [List.forall_mem_cons] at h h'
      simp only [terminated_cons, List.append_assoc, List.cons_append] at heq
      obtain ⟨rfl, hrest⟩ := append_cons_inj h.1.2 h'.1.2 heq
      obtain ⟨rfl, hst⟩ := ih h.2 h'.2 hrest
      exact ⟨rfl, hst⟩

/-- A list of lists of words can be read off, each list ending with a separator of its own. -/
theorem terminated_map_inj {groups groups' : List (List (List α))}
    (h : ∀ words ∈ groups, ∀ word ∈ words, IsWord sep word)
    (h' : ∀ words ∈ groups', ∀ word ∈ words, IsWord sep word)
    (heq : terminated sep (groups.map (terminated sep)) =
      terminated sep (groups'.map (terminated sep))) : groups = groups' := by
  induction groups generalizing groups' with
  | nil => cases groups' with
    | nil => rfl
    | cons words' groups' => simp at heq
  | cons words groups ih => cases groups' with
    | nil => simp at heq
    | cons words' groups' =>
      rw [List.forall_mem_cons] at h h'
      simp only [List.map_cons, terminated_cons] at heq
      obtain ⟨rfl, hrest⟩ := terminated_append_cons_inj h.1 h'.1 heq
      rw [ih h.2 h'.2 hrest]

/-! ## Separators between words -/

/-- With one more separator at the end, every word has one behind it. -/
theorem intercalate_append (h : words ≠ []) :
    [sep].intercalate words ++ [sep] = terminated sep words := by
  induction words with
  | nil => exact absurd rfl h
  | cons word words ih => cases words with
    | nil => simp
    | cons word' words =>
      rw [List.intercalate_cons_cons, terminated_cons, ← ih (List.cons_ne_nil _ _)]
      simp

theorem intercalate_ne_nil (h : ∀ word ∈ words, word ≠ []) (hne : words ≠ []) :
    [sep].intercalate words ≠ [] := by
  obtain ⟨word, words, rfl⟩ := List.exists_cons_of_ne_nil hne
  have hword := h word List.mem_cons_self
  cases words with
  | nil => simpa using hword
  | cons word' words => simp [List.intercalate_cons_cons]

/-- Words none of which is empty may as well have their separators between them. -/
theorem terminated_eq_of_intercalate_eq (h : ∀ word ∈ words, word ≠ [])
    (h' : ∀ word ∈ words', word ≠ [])
    (heq : [sep].intercalate words = [sep].intercalate words') :
    terminated sep words = terminated sep words' := by
  by_cases hnil : words = []
  · by_cases hnil' : words' = []
    · rw [hnil, hnil']
    · exact absurd (heq.symm.trans (by rw [hnil]; rfl)) (intercalate_ne_nil h' hnil')
  · by_cases hnil' : words' = []
    · exact absurd (heq.trans (by rw [hnil']; rfl)) (intercalate_ne_nil h hnil)
    · rw [← intercalate_append hnil, ← intercalate_append hnil', heq]

end Terminated

/-! ## Words and lines of strings -/

section Strings

variable {words words' : List String} {s t : String}

theorem map_toList_inj (h : words.map String.toList = words'.map String.toList) :
    words = words' :=
  List.map_injective_iff.mpr (fun _ _ => String.toList_inj.mp) h

/-- Words can be read off a string with blanks between them. -/
theorem intercalate_blank_inj (h : ∀ word ∈ words, IsWord ' ' word.toList)
    (h' : ∀ word ∈ words', IsWord ' ' word.toList)
    (heq : " ".intercalate words = " ".intercalate words') : words = words' := by
  have hchars : [' '].intercalate (words.map String.toList) =
      [' '].intercalate (words'.map String.toList) := by
    have heq := congrArg String.toList heq
    rw [String.toList_intercalate, String.toList_intercalate] at heq
    exact heq
  have hterminated := terminated_eq_of_intercalate_eq
    (List.forall_mem_map.mpr fun word hmem => (h word hmem).1)
    (List.forall_mem_map.mpr fun word hmem => (h' word hmem).1) hchars
  exact map_toList_inj (terminated_inj (List.forall_mem_map.mpr fun word hmem => (h word hmem).2)
    (List.forall_mem_map.mpr fun word hmem => (h' word hmem).2) hterminated)

/-- Two blanks end the words. -/
theorem intercalate_blank_append_inj (h : ∀ word ∈ words, IsWord ' ' word.toList)
    (h' : ∀ word ∈ words', IsWord ' ' word.toList) (hne : words ≠ []) (hne' : words' ≠ [])
    (heq : " ".intercalate words ++ "  " ++ s = " ".intercalate words' ++ "  " ++ t) :
    words = words' ∧ s = t := by
  have hchars {words : List String} {s : String} (hne : words ≠ []) :
      (" ".intercalate words ++ "  " ++ s).toList =
        terminated ' ' (words.map String.toList) ++ ' ' :: s.toList := by
    rw [← intercalate_append (List.map_eq_nil_iff.not.mpr hne)]
    simp [String.toList_append, String.toList_intercalate]
  have heq := congrArg String.toList heq
  rw [hchars hne, hchars hne'] at heq
  obtain ⟨hwords, hst⟩ := terminated_append_cons_inj (List.forall_mem_map.mpr h)
    (List.forall_mem_map.mpr h') heq
  exact ⟨map_toList_inj hwords, String.toList_inj.mp hst⟩

/-- A character that is neither in the separator nor in a word is not in the text. -/
theorem not_mem_intercalate {c : Char} (hs : c ∉ s.toList) (h : ∀ word ∈ words, c ∉ word.toList) :
    c ∉ (s.intercalate words).toList := by
  induction words with
  | nil => exact List.not_mem_nil
  | cons word words ih =>
    rw [List.forall_mem_cons] at h
    cases words with
    | nil => exact h.1
    | cons word' words =>
      rw [String.intercalate_cons_cons, String.toList_append, String.toList_append,
        List.mem_append, List.mem_append, not_or, not_or]
      exact ⟨⟨h.1, hs⟩, ih h.2⟩

/-- The text is in one line. -/
def IsLine (s : String) : Prop := '\n' ∉ s.toList

instance (s : String) : Decidable (IsLine s) := inferInstanceAs (Decidable (¬_))

@[simp] theorem isLine_append_iff : IsLine (s ++ t) ↔ IsLine s ∧ IsLine t := by
  rw [IsLine, String.toList_append, List.mem_append, not_or]
  rfl

theorem isLine_intercalate (hs : IsLine s) (h : ∀ word ∈ words, IsLine word) :
    IsLine (s.intercalate words) := not_mem_intercalate hs h

/-- The lines one after the other, each with its end. -/
def unlines (lines : List String) : String := String.join (lines.map (· ++ "\n"))

theorem toList_unlines (lines : List String) :
    (unlines lines).toList = terminated '\n' (lines.map String.toList) := by
  rw [unlines, String.toList_join, terminated, List.flatMap_map, List.flatMap_map]
  simp [String.toList_append]

/-- A section has lines, and none of them is empty. -/
structure IsSection (lines : List String) : Prop where
  ne_nil : lines ≠ []
  isLine : ∀ line ∈ lines, line ≠ "" ∧ IsLine line

theorem IsSection.isWord {lines : List String} (h : IsSection lines) :
    ∀ word ∈ lines.map String.toList, IsWord '\n' word :=
  List.forall_mem_map.mpr fun line hmem =>
    ⟨String.toList_eq_nil_iff.not.mpr (h.isLine line hmem).1, (h.isLine line hmem).2⟩

theorem toList_intercalate_unlines (sections : List (List String)) :
    ("\n".intercalate (sections.map unlines)).toList = ['\n'].intercalate
      ((sections.map (List.map String.toList)).map (terminated '\n')) := by
  rw [String.toList_intercalate, List.map_map, List.map_map]
  exact congrArg _ (List.map_congr_left fun lines _ => toList_unlines lines)

/-- Sections can be read off a text with an empty line between them. -/
theorem intercalate_unlines_inj {sections sections' : List (List String)}
    (h : ∀ lines ∈ sections, IsSection lines) (h' : ∀ lines ∈ sections', IsSection lines)
    (heq : "\n".intercalate (sections.map unlines) = "\n".intercalate (sections'.map unlines)) :
    sections = sections' := by
  have hchars := congrArg String.toList heq
  rw [toList_intercalate_unlines, toList_intercalate_unlines] at hchars
  have hne {lines : List String} (hlines : IsSection lines) :
      terminated '\n' (lines.map String.toList) ≠ [] := by
    obtain ⟨line, lines, rfl⟩ := List.exists_cons_of_ne_nil hlines.ne_nil
    simp
  have hgroups {sections : List (List String)} (h : ∀ lines ∈ sections, IsSection lines) :
      ∀ words ∈ sections.map (List.map String.toList), ∀ word ∈ words, IsWord '\n' word :=
    List.forall_mem_map.mpr fun lines hmem => (h lines hmem).isWord
  have hterminated := terminated_eq_of_intercalate_eq
    (List.forall_mem_map.mpr (List.forall_mem_map.mpr fun lines hmem => hne (h lines hmem)))
    (List.forall_mem_map.mpr (List.forall_mem_map.mpr fun lines hmem => hne (h' lines hmem))) hchars
  have heq := terminated_map_inj (hgroups h) (hgroups h') hterminated
  exact List.map_injective_iff.mpr (fun _ _ => map_toList_inj) heq

end Strings

/-! ## Numerals -/

/-- A number can be read off its digits. -/
theorem numeral_inj {width n m : Nat} (h : numeral width n = numeral width m) : n = m := by
  have hvalue (n : Nat) : Nat.ofDigitChars 10 (numeral width n).toList 0 = n := by
    rw [numeral, String.toList_ofList, Nat.ofDigitChars_append, Nat.ofDigitChars_replicate_zero,
      Nat.mul_zero, Nat.ofDigitChars_toDigits (by decide) (by decide)]
  rw [← hvalue n, h, hvalue]

/-- A numeral consists of digits. -/
theorem isDigit_of_mem_numeral {width n : Nat} {c : Char} (h : c ∈ (numeral width n).toList) :
    c.isDigit = true := by
  rw [numeral, String.toList_ofList, List.mem_append] at h
  rcases h with h | h
  · rw [List.eq_of_mem_replicate h]
    rfl
  · exact Nat.isDigit_of_mem_toDigits (by decide) (by decide) h

theorem isLine_numeral (width n : Nat) : IsLine (numeral width n) := fun hmem =>
  absurd (isDigit_of_mem_numeral hmem) (by decide)

end Lalr
