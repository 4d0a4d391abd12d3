import Lalr.Ident.XidStart
import Lalr.Ident.XidContinue

/-!
# Identifiers

The name of a declared symbol has to be an identifier of the language for which parsers are
generated: a word that is no keyword, or the mark `r#` and a word that is allowed to follow it.

- `Classes`: the characters that words are made of, and `Classes.IsStandard`: what is relied on of
  them. `unicode` has them as Unicode does (`isStandard_unicode`).
- `Classes.isWord`: one character that may begin a word or an underscore, then characters that may
  continue it.
- `Classes.isIdentifier`: the check of a name, and `isIdentifier`: that check with `unicode`.
-/

namespace Lalr.Ident

/-- The characters that may begin a word, of the Unicode class `XID_Start`, and those that may
continue it, of the class `XID_Continue`. -/
structure Classes where
  isStart : Char → Bool
  isContinue : Char → Bool

/-- What begins a word may continue it, too, and of the characters of ASCII the letters, the digits
and the underscore may continue a word. -/
structure Classes.IsStandard (xid : Classes) : Prop where
  continue_of_start : ∀ c, xid.isStart c = true → xid.isContinue c = true
  ascii_iff : ∀ c : Char, c.toNat < 128 → (xid.isContinue c = true ↔ c.isAlphanum ∨ c = '_')

namespace Classes

/-- Whether the characters make a word. -/
def isWord (xid : Classes) : List Char → Bool
  | [] => false
  | c :: cs => (c == '_' || xid.isStart c) && cs.all xid.isContinue

end Classes

/-- Words that are part of the language. -/
def strictKeywords : List String :=
  ["as", "break", "const", "continue", "crate", "else", "enum", "extern", "false", "fn", "for",
    "if", "impl", "in", "let", "loop", "match", "mod", "move", "mut", "pub", "ref", "return",
    "self", "Self", "static", "struct", "super", "trait", "true", "type", "unsafe", "use",
    "where", "while", "async", "await", "dyn"]

/-- Words that the language keeps for later. -/
def reservedWords : List String :=
  ["abstract", "become", "box", "do", "final", "macro", "override", "priv", "typeof", "unsized",
    "virtual", "yield", "try"]

/-- Words that stay keywords after the mark `r#`. -/
def pathKeywords : List String := ["crate", "self", "super", "Self"]

namespace Classes

/-- Whether the characters make an identifier: marked by `r#` or not. Digits alone make none. -/
def isIdentifierOf (xid : Classes) (cs : List Char) : Bool :=
  !cs.isEmpty && !cs.all Char.isDigit && match cs with
    | 'r' :: '#' :: word => !pathKeywords.contains (String.ofList word) && xid.isWord word
    | word =>
      !strictKeywords.contains (String.ofList word) && !reservedWords.contains (String.ofList word)
        && xid.isWord word

/-- Whether a name is an identifier. -/
def isIdentifier (xid : Classes) (name : String) : Bool := xid.isIdentifierOf name.toList

end Classes

/-! ## The classes of Unicode -/

/-- Whether a code point lies in one of the closed ranges. -/
def inRanges (ranges : List (Nat × Nat)) (code : Nat) : Bool :=
  ranges.any fun range => range.1 ≤ code && code ≤ range.2

/-- The classes as Unicode has them. -/
def unicode : Classes where
  isStart c := inRanges xidStart c.toNat
  isContinue c := inRanges xidStart c.toNat || inRanges xidContinueOnly c.toNat

theorem isStandard_unicode : unicode.IsStandard := by
  constructor
  · intro c h
    exact Bool.or_eq_true_iff.2 (.inl h)
  · intro c small
    have all : ∀ n < 128, (inRanges xidStart n || inRanges xidContinueOnly n) =
        ((Char.ofNat n).isAlphanum || Char.ofNat n == '_') := by
      decide +kernel
    have same := all c.toNat small
    rw [Char.ofNat_toNat] at same
    show (inRanges xidStart c.toNat || inRanges xidContinueOnly c.toNat) = true ↔ _
    rw [same, Bool.or_eq_true, beq_iff_eq]

/-- Whether a name is an identifier. -/
def isIdentifier (name : String) : Bool := unicode.isIdentifier name

example : isIdentifier "Expr_1" = true := by decide +kernel

example : isIdentifier "r#type" = true := by decide +kernel

example : isIdentifier "type" = false ∧ isIdentifier "r#self" = false := by decide +kernel

example : isIdentifier "" = false ∧ isIdentifier "1" = false := by decide +kernel

end Lalr.Ident
