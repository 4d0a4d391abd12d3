import Lalr.BitSet.Growth
import Lalr.Grammar.Basic
import Lalr.Saturation

/-!
# Nullable nonterminals and FIRST sets

Which nonterminals derive the empty string, and which terminals can come first in what a nonterminal
derives, are two least solutions: each is found by letting sets grow under the rules until a pass
over the rules changes nothing.

- `nullables`: the nonterminals that derive the empty string. It begins with those that have a rule
  for nothing.
- `firstTable`: for each nonterminal the terminals that come first in some string that it derives.
  The rules are read once, into terminals and constraints; then the constraints are solved.
- `suffixes`: both facts for every suffix of a right-hand side, from its end to its beginning.
-/

namespace Lalr

/-! ## Nullable nonterminals -/

/-- Whether a symbol is one of the nonterminals in `nulls`. -/
def Symbol.isIn (nulls : BitSet) : Symbol → Bool
  | terminal _ => false
  | nonterminal n => nulls.contains n

/-- Adds the left side of a rule whose right-hand side consists of members, and says whether it did.
A left side that is a member already is passed over. -/
def addNullable (nulls : BitSet) (rule : Rule) : Bool × BitSet :=
  if nulls.contains rule.left then (false, nulls)
  else if rule.right.all (Symbol.isIn nulls) then (true, nulls.insert rule.left)
  else (false, nulls)

/-- The number of rules whose left side is not a member. -/
def openRules (rules : List Rule) (nulls : BitSet) : Nat :=
  rules.countP fun rule => !nulls.contains rule.left

theorem openRules_lt {rules : List Rule} {a b : BitSet} {rule : Rule} (h : a ⊆ b)
    (mem : rule ∈ rules) (old : rule.left ∉ a) (new : rule.left ∈ b) :
    openRules rules b < openRules rules a := by
  refine countP_lt_countP (fun other _ k => ?_) mem ?_ ?_
  · rw [Bool.not_eq_true', Bool.eq_false_iff] at k ⊢
    exact fun m => k (h _ m)
  · rw [Bool.not_eq_false']
    exact new
  · rw [Bool.not_eq_true', Bool.eq_false_iff]
    exact old

/-- What can become of a set when a rule is looked at. -/
theorem addNullable_cases (nulls : BitSet) (rule : Rule) :
    addNullable nulls rule = (false, nulls) ∨ rule.left ∉ nulls ∧
      rule.right.all (Symbol.isIn nulls) = true ∧
        addNullable nulls rule = (true, nulls.insert rule.left) := by
  unfold addNullable
  split
  · exact .inl rfl
  · next new =>
    split
    · next all => exact .inr ⟨new, all, rfl⟩
    · exact .inl rfl

theorem progresses_addNullable (rules : List Rule) :
    Progresses addNullable (openRules rules) rules := by
  constructor
  · intro rule _ nulls idle
    rcases addNullable_cases nulls rule with same | ⟨_, _, adds⟩
    · rw [same]
    · rw [adds] at idle
      cases idle
  · intro rule mem nulls changes
    rcases addNullable_cases nulls rule with same | ⟨new, _, adds⟩
    · rw [same] at changes
      cases changes
    -- a new member leaves its rule no longer open
    · rw [adds]
      exact openRules_lt (fun _ h => BitSet.mem_insert.2 (.inr h)) mem new
        (BitSet.mem_insert.2 (.inl rfl))

/-- The left sides of the rules for nothing. -/
def emptyLefts (rules : List Rule) : BitSet :=
  .ofList ((rules.filter fun rule => rule.right.isEmpty).map Rule.left)

/-- The nonterminals that derive the empty string by the rules. -/
def nullables (rules : List Rule) : BitSet :=
  saturate addNullable (openRules rules) rules (progresses_addNullable rules) (emptyLefts rules)

/-! ## FIRST sets -/

/-- The FIRST set of a symbol, where `table` has those of the nonterminals. -/
def Symbol.first (table : Array TerminalSet) : Symbol → TerminalSet
  | terminal t => .singleton t
  | nonterminal n => table[n]?.getD ∅

/-- The FIRST set of `upper` has to contain that of `lower`. -/
structure FirstConstraint where
  upper : NonterminalId
  lower : NonterminalId
deriving DecidableEq, Repr

/-- What rules say of FIRST sets: the terminals that come first by one of them, and constraints. -/
structure FirstSystem where
  table : Array TerminalSet
  constraints : Array FirstConstraint

namespace FirstSystem

/-- Puts a terminal into the FIRST set of a nonterminal. -/
def insert (system : FirstSystem) (n : NonterminalId) (t : TerminalId) : FirstSystem :=
  match system with
  | ⟨table, constraints⟩ => ⟨table.modify n (·.insert t), constraints⟩

/-- Adds a constraint, unless it is one of a set on itself. -/
def constrain (system : FirstSystem) (upper lower : NonterminalId) : FirstSystem :=
  match system with
  | ⟨table, constraints⟩ =>
    if lower = upper then ⟨table, constraints⟩ else ⟨table, constraints.push ⟨upper, lower⟩⟩

/-- Reads a right-hand side up to the first symbol that is not nullable. A terminal comes into the
FIRST set of the left side at once, a nonterminal gives a constraint. -/
def readRight (nulls : BitSet) (left : NonterminalId) (system : FirstSystem) :
    List Symbol → FirstSystem
  | [] => system
  | .terminal t :: _ => system.insert left t
  | .nonterminal n :: symbols =>
    let system := system.constrain left n
    if nulls.contains n then readRight nulls left system symbols else system

/-- What the rules say of the FIRST sets of the first `count` nonterminals. -/
def ofRules (nulls : BitSet) (rules : List Rule) (count : Nat) : FirstSystem :=
  rules.foldl (fun system rule => system.readRight nulls rule.left rule.right.toList)
    ⟨.replicate count ∅, #[]⟩

end FirstSystem

/-- Lets a FIRST set take in the one that it has to contain, and says whether it grew. -/
def obey (table : Array TerminalSet) (k : FirstConstraint) : Bool × Array TerminalSet :=
  match table[k.upper]?, table[k.lower]? with
  | some upper, some lower =>
    let (grew, upper) := upper.absorb lower
    (grew, if grew then table.setIfInBounds k.upper upper else table)
  | _, _ => (false, table)

/-- What the FIRST sets of a table may still gain from each other. -/
def firstRoom (table : Array TerminalSet) : Nat :=
  BitSet.room (.join table.toList) table.toList

/-- What can become of a table when a constraint is looked at. -/
theorem obey_cases (table : Array TerminalSet) (k : FirstConstraint) :
    obey table k = (false, table) ∨ ∃ upper lower, table[k.upper]? = some upper ∧
      table[k.lower]? = some lower ∧ ¬lower ⊆ upper ∧
        obey table k = (true, table.setIfInBounds k.upper (upper ∪ lower)) := by
  unfold obey
  split
  · next upper lower at_upper at_lower =>
    by_cases sub : lower ⊆ upper
    · exact .inl (by simp [BitSet.absorb, sub])
    · exact .inr ⟨upper, lower, at_upper, at_lower, sub, by simp [BitSet.absorb, sub]⟩
  · exact .inl rfl

/-- A constraint under which nothing grows is obeyed. -/
theorem subset_of_obey {table : Array TerminalSet} {k : FirstConstraint} {upper lower : TerminalSet}
    (at_upper : table[k.upper]? = some upper) (at_lower : table[k.lower]? = some lower)
    (idle : (obey table k).1 = false) : lower ⊆ upper := by
  unfold obey at idle
  rw [at_upper, at_lower] at idle
  refine Classical.byContradiction fun new => ?_
  rw [(BitSet.absorb_fst upper lower).2 new] at idle
  cases idle

theorem firstRoom_lt {table : Array TerminalSet} {i j : NonterminalId} {upper lower : TerminalSet}
    (at_upper : table[i]? = some upper) (at_lower : table[j]? = some lower)
    (new : ¬lower ⊆ upper) :
    firstRoom (table.setIfInBounds i (upper ∪ lower)) < firstRoom table := by
  have member {n : Nat} {s : TerminalSet} (h : table[n]? = some s) : s ∈ table.toList :=
    Array.mem_toList_iff.2 (Array.mem_of_getElem? h)
  obtain ⟨lt, entry⟩ := Array.getElem?_eq_some_iff.1 at_upper
  have inside : i < table.toList.length := lt
  have grows : table.toList[i] ⊆ upper ∪ lower := by
    rw [Array.getElem_toList, entry]
    exact BitSet.subset_union_left _ _
  have below : upper ∪ lower ⊆ BitSet.join table.toList :=
    BitSet.union_subset (BitSet.subset_join (member at_upper))
      (BitSet.subset_join (member at_lower))
  rw [firstRoom, firstRoom, Array.toList_setIfInBounds, BitSet.join_set inside grows below]
  refine BitSet.room_set_lt inside grows (fun sub => new ?_) below
  rw [Array.getElem_toList, entry] at sub
  exact BitSet.Subset.trans (BitSet.subset_union_right _ _) sub

theorem progresses_obey (constraints : List FirstConstraint) :
    Progresses obey firstRoom constraints := by
  constructor
  · intro k _ table idle
    rcases obey_cases table k with same | ⟨_, _, _, _, _, grows⟩
    · rw [same]
    · rw [grows] at idle
      cases idle
  · intro k _ table changes
    rcases obey_cases table k with same | ⟨upper, lower, at_upper, at_lower, new, grows⟩
    · rw [same] at changes
      cases changes
    · rw [grows]
      exact firstRoom_lt at_upper at_lower new

/-- For each of the first `count` nonterminals the terminals that come first in what it derives. -/
def firstTable (nulls : BitSet) (rules : List Rule) (count : Nat) : Array TerminalSet :=
  let system := FirstSystem.ofRules nulls rules count
  saturate obey firstRoom system.constraints.toList (progresses_obey _) system.table

/-! ## Suffixes of right-hand sides -/

/-- What is known of a string that begins with a symbol, from what is known of the rest. -/
def Suffix.cons (nulls : BitSet) (table : Array TerminalSet) (symbol : Symbol) (rest : Suffix) :
    Suffix :=
  if symbol.isIn nulls then ⟨symbol.first table ∪ rest.first, rest.nullable⟩
  else ⟨symbol.first table, false⟩

/-- Of every suffix of a string, from the whole string to the empty one. -/
def suffixes (nulls : BitSet) (table : Array TerminalSet) (symbols : List Symbol) : List Suffix :=
  symbols.foldr (fun symbol rest => .cons nulls table symbol (rest.headD .empty) :: rest) [.empty]

end Lalr
