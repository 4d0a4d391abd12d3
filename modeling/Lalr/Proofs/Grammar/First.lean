import Lalr.Grammar.Rules
import Lalr.Proofs.Grammar.Derivation
import Mathlib.Data.List.Induction

/-!
# The tables of a grammar are exact

`Grammar.ofRules` fills in, for every suffix of every right-hand side, whether
it derives the empty string and which terminals can begin what it derives. There
is an entry for every suffix, and it says exactly that (`exists_suffix_ofRules`).

Each table is a least solution. It is sound because every step adds only what a
derivation shows, and complete because a pass that changes nothing leaves it closed
under the productions: then it holds of the beginning of a derivation what it
holds of its end.

- `leading`: the symbols of a string that matter for its first terminals. Reading
  the rules collects just these (`FirstSystem.Reads`).
-/

namespace Lalr

/-! ## The first symbols that matter -/

section Leading

variable {nulls : BitSet} {X : Symbol} {α β : List Symbol}

/-- The symbols of a string up to the first that is not nullable, which is included. -/
def leading (nulls : BitSet) (symbols : List Symbol) : List Symbol :=
  symbols.takeWhile (Symbol.isIn nulls) ++ (symbols.dropWhile (Symbol.isIn nulls)).take 1

theorem leading_nil : leading nulls [] = [] := rfl

theorem leading_cons :
    leading nulls (X :: α) = if X.isIn nulls then X :: leading nulls α else [X] := by
  unfold leading
  split
  · next h => rw [List.takeWhile_cons_of_pos h, List.dropWhile_cons_of_pos h, List.cons_append]
  · next h => rw [List.takeWhile_cons_of_neg h, List.dropWhile_cons_of_neg h]; rfl

/-- The second part of a string matters when the first part can be empty. -/
theorem mem_leading_append_iff {Y : Symbol} :
    Y ∈ leading nulls (α ++ β) ↔
      Y ∈ leading nulls α ∨ (∀ X ∈ α, X.isIn nulls = true) ∧ Y ∈ leading nulls β := by
  induction α with
  | nil => simp [leading_nil]
  | cons X α ih =>
    rw [List.cons_append, leading_cons, leading_cons]
    split
    · next h => simp only [List.mem_cons, ih, forall_eq_or_imp, h, true_and, or_assoc]
    · next h =>
      simp only [List.mem_cons, List.not_mem_nil, forall_eq_or_imp, h, Bool.false_eq_true,
        false_and, or_false]

theorem not_isIn_terminal {t : TerminalId} : Symbol.isIn nulls (.terminal t) = false := rfl

end Leading

/-! ## Reading the rules -/

section Sets

variable {table : Array TerminalSet} {n m : NonterminalId} {t : TerminalId}

theorem mem_first_nonterminal_iff : t ∈ Symbol.first table (.nonterminal n) ↔
    ∃ set, table[n]? = some set ∧ t ∈ set := by
  rw [Symbol.first]
  cases table[n]? with
  | none => simp
  | some set => simp

theorem mem_first_modify_iff {f : TerminalSet → TerminalSet} {p : Prop}
    (hf : ∀ set, t ∈ f set ↔ t ∈ set ∨ p) :
    t ∈ Symbol.first (table.modify n f) (.nonterminal m) ↔
      t ∈ Symbol.first table (.nonterminal m) ∨ m = n ∧ n < table.size ∧ p := by
  rw [mem_first_nonterminal_iff, mem_first_nonterminal_iff, Array.getElem?_modify]
  split
  · next heq =>
    subst heq
    by_cases hlt : n < table.size
    · simp [hf, hlt]
    · simp [hlt]
  · next hne => simp [Ne.symm hne]

end Sets

namespace FirstSystem

variable {nulls : BitSet} {system : FirstSystem} {rules : List Rule} {count : Nat}

/-- The system has what the rules say: the terminals that matter in them, and a constraint for each
nonterminal that does, except the left side itself. -/
structure Reads (nulls : BitSet) (rules : List Rule) (count : Nat) (system : FirstSystem) :
    Prop where
  size : system.table.size = count
  mem_first_iff : ∀ n t, t ∈ Symbol.first system.table (.nonterminal n) ↔
    n < count ∧ ∃ rule ∈ rules, rule.left = n ∧ .terminal t ∈ leading nulls rule.right.toList
  mem_constraints_iff : ∀ k, k ∈ system.constraints ↔ k.lower ≠ k.upper ∧
    ∃ rule ∈ rules, rule.left = k.upper ∧ .nonterminal k.lower ∈ leading nulls rule.right.toList

theorem table_constrain (upper lower : NonterminalId) :
    (system.constrain upper lower).table = system.table := by
  unfold constrain
  split
  split <;> rfl

theorem mem_constraints_constrain_iff {upper lower : NonterminalId} {k : FirstConstraint} :
    k ∈ (system.constrain upper lower).constraints ↔ k ∈ system.constraints ∨
      k.lower ≠ k.upper ∧ upper = k.upper ∧ lower = k.lower := by
  obtain ⟨upper', lower'⟩ := k
  unfold constrain
  split
  split
  · next hself =>
    subst hself
    refine ⟨.inl, fun h => h.resolve_right ?_⟩
    rintro ⟨hne, rfl, rfl⟩
    exact hne rfl
  · next hne =>
    rw [Array.mem_push, FirstConstraint.mk.injEq]
    refine or_congr_right ⟨?_, fun ⟨_, hupper, hlower⟩ => ⟨hupper.symm, hlower.symm⟩⟩
    rintro ⟨rfl, rfl⟩
    exact ⟨hne, rfl, rfl⟩

/-- What one right-hand side adds to a system. -/
theorem readRight_spec (nulls : BitSet) (left : NonterminalId) (system : FirstSystem)
    (α : List Symbol) :
    (system.readRight nulls left α).table.size = system.table.size ∧
    (∀ n t, t ∈ Symbol.first (system.readRight nulls left α).table (.nonterminal n) ↔
      t ∈ Symbol.first system.table (.nonterminal n) ∨
        n = left ∧ left < system.table.size ∧ .terminal t ∈ leading nulls α) ∧
    ∀ k, k ∈ (system.readRight nulls left α).constraints ↔ k ∈ system.constraints ∨
      k.lower ≠ k.upper ∧ left = k.upper ∧ .nonterminal k.lower ∈ leading nulls α := by
  induction α generalizing system with
  | nil => simp [readRight, leading_nil]
  | cons X α ih =>
    cases X with
    | terminal u =>
      have hlead : leading nulls (.terminal u :: α) = [.terminal u] := by
        rw [leading_cons, not_isIn_terminal]
        rfl
      refine ⟨Array.size_modify, fun n t => ?_, fun k => by simp [readRight, insert, hlead]⟩
      rw [hlead]
      exact (mem_first_modify_iff fun set => by rw [BitSet.mem_insert, or_comm]).trans (by simp)
    | nonterminal m =>
      have hlead : leading nulls (.nonterminal m :: α) =
          .nonterminal m :: if nulls.contains m then leading nulls α else [] := by
        rw [leading_cons, Symbol.isIn]
        split <;> rfl
      rw [readRight, hlead]
      split
      · obtain ⟨hsize, hfirst, hconstraints⟩ := ih (system.constrain left m)
        rw [table_constrain] at hsize hfirst
        refine ⟨hsize, fun n t => (hfirst n t).trans (by simp), fun k => ?_⟩
        rw [hconstraints, mem_constraints_constrain_iff, List.mem_cons, Symbol.nonterminal.injEq]
        grind
      · refine ⟨by rw [table_constrain], fun n t => by simp [table_constrain], fun k => ?_⟩
        rw [mem_constraints_constrain_iff, List.mem_singleton, Symbol.nonterminal.injEq,
          @eq_comm _ m]

/-- Reading the rules gives what they say. -/
theorem reads_ofRules (nulls : BitSet) (rules : List Rule) (count : Nat) :
    Reads nulls rules count (ofRules nulls rules count) := by
  induction rules using List.reverseRecOn with
  | nil =>
    refine ⟨Array.size_replicate, fun n t => ?_, fun k => by simp [ofRules]⟩
    rw [mem_first_nonterminal_iff, ofRules, List.foldl_nil, Array.getElem?_replicate]
    split <;> simp
  | append_singleton rules rule ih =>
    obtain ⟨hsize, hfirst, hconstraints⟩ :=
      readRight_spec nulls rule.left (ofRules nulls rules count) rule.right.toList
    rw [ofRules, List.foldl_append, List.foldl_cons, List.foldl_nil, ← ofRules]
    refine ⟨hsize.trans ih.size, fun n t => (hfirst n t).trans ?_,
      fun k => (hconstraints k).trans ?_⟩
    · rw [ih.mem_first_iff, ih.size]
      simp only [List.mem_append, List.mem_singleton]
      grind
    · rw [ih.mem_constraints_iff]
      simp only [List.mem_append, List.mem_singleton]
      grind

end FirstSystem

/-- What is known of a string is true. -/
structure Suffix.IsExact (g : Grammar) (known : Suffix) (α : List Symbol) : Prop where
  nullable_iff : known.nullable = true ↔ g.Nullable α
  mem_first_iff : ∀ t, t ∈ known.first ↔ g.First α t

namespace Grammar

variable {terminals nonterminals : Array String} {rules : List Rule} {start : NonterminalId}

/-- The productions are the rules, in their order. -/
theorem expands_ofRules_iff {p : ProductionId} {n : NonterminalId} {right : List Symbol} :
    (ofRules terminals nonterminals rules start).Expands p n right ↔
      ∃ rule, rules[p]? = some rule ∧ rule.left = n ∧ rule.right.toList = right := by
  simp only [Expands, ofRules, List.getElem?_toArray, List.getElem?_map, Option.map_eq_some_iff]
  constructor
  · rintro ⟨_, ⟨rule, hrule, rfl⟩, hleft, hright⟩
    exact ⟨rule, hrule, hleft, hright⟩
  · rintro ⟨rule, hrule, hleft, hright⟩
    exact ⟨_, ⟨rule, hrule, rfl⟩, hleft, hright⟩

section Tables

-- a grammar with these rules, whatever else it has
variable {g : Grammar}
  (hrules : ∀ p n right, g.Expands p n right ↔
    ∃ rule, rules[p]? = some rule ∧ rule.left = n ∧ rule.right.toList = right)

include hrules

theorem expands_of_mem {rule : Rule} (h : rule ∈ rules) :
    ∃ p, g.Expands p rule.left rule.right.toList := by
  obtain ⟨p, hp⟩ := List.mem_iff_getElem?.mp h
  exact ⟨p, (hrules _ _ _).mpr ⟨rule, hp, rfl, rfl⟩⟩

theorem mem_of_expands {p : ProductionId} {n : NonterminalId} {right : List Symbol}
    (h : g.Expands p n right) : ∃ rule ∈ rules, rule.left = n ∧ rule.right.toList = right := by
  obtain ⟨rule, hp, hleft, hright⟩ := (hrules _ _ _).mp h
  exact ⟨rule, List.mem_of_getElem? hp, hleft, hright⟩

/-! ## Nullable nonterminals -/

/-- A rule whose right-hand side consists of nullable nonterminals makes its left side nullable. -/
theorem nullable_of_all {nulls : BitSet} (hsound : ∀ {n}, n ∈ nulls → g.Nullable [.nonterminal n])
    {rule : Rule} (hmem : rule ∈ rules) (hall : ∀ X ∈ rule.right.toList, X.isIn nulls = true) :
    g.Nullable [.nonterminal rule.left] := by
  obtain ⟨p, hp⟩ := expands_of_mem hrules hmem
  refine hp.nullable ?_
  generalize rule.right.toList = right at hall
  induction right with
  | nil => exact nullable_nil
  | cons X right ih =>
    refine nullable_cons_iff.mpr ⟨?_, ih fun Y hY => hall Y (List.mem_cons_of_mem _ hY)⟩
    cases X with
    | terminal t => exact absurd (hall _ List.mem_cons_self) (by simp [Symbol.isIn])
    | nonterminal m => exact hsound (hall _ List.mem_cons_self)

theorem nullable_of_mem_nullables {n : NonterminalId} (h : n ∈ nullables rules) :
    g.Nullable [.nonterminal n] := by
  revert n
  refine saturate_induction (P := fun nulls => ∀ {n}, n ∈ nulls → g.Nullable [.nonterminal n])
    (fun h => ?_) fun rule hmem nulls hsound n h => ?_
  · rw [emptyLefts, BitSet.mem_ofList] at h
    obtain ⟨rule, hmem, rfl⟩ := List.mem_map.mp h
    obtain ⟨hmem, hempty⟩ := List.mem_filter.mp hmem
    have hnone {n : NonterminalId} (h : n ∈ (∅ : BitSet)) : g.Nullable [.nonterminal n] :=
      absurd h (BitSet.not_mem_empty n)
    exact nullable_of_all hrules hnone hmem (by simp [Array.isEmpty_iff.mp hempty])
  · rcases addNullable_cases nulls rule with heq | ⟨-, hall, heq⟩
    · rw [heq] at h
      exact hsound h
    · rw [heq] at h
      rcases BitSet.mem_insert.mp h with rfl | h
      · rw [← Array.all_toList, List.all_eq_true] at hall
        exact nullable_of_all hrules hsound hmem hall
      · exact hsound h

omit hrules in
theorem mem_nullables_of_all {rule : Rule} (h : rule ∈ rules)
    (hall : ∀ X ∈ rule.right.toList, X.isIn (nullables rules) = true) :
    rule.left ∈ nullables rules := by
  have hidle : (addNullable (nullables rules) rule).1 = false := step_saturate h _
  refine Classical.byContradiction fun hnew => ?_
  -- a pass would have added it
  have hadds : (addNullable (nullables rules) rule).1 = true := by
    unfold addNullable
    rw [if_neg (show ¬(nullables rules).contains rule.left = true from hnew), if_pos]
    rw [← Array.all_toList]
    exact List.all_eq_true.mpr hall
  rw [hidle] at hadds
  cases hadds

theorem isIn_of_nullable {α : List Symbol} (h : g.Nullable α) :
    ∀ X ∈ α, X.isIn (nullables rules) = true := by
  induction h using Relation.ReflTransGen.head_induction_on with
  | refl => simp
  | head hstep _ ih =>
    cases hstep with
    | expand h pre post =>
      obtain ⟨rule, hmem, rfl, rfl⟩ := mem_of_expands hrules h
      intro X hX
      rcases List.mem_append.mp hX with hX | hX
      · exact ih X (by simp [hX])
      · rcases List.mem_cons.mp hX with rfl | hX
        · exact mem_nullables_of_all hmem fun Y hY => ih Y (by simp [Array.mem_toList_iff.mp hY])
        · exact ih X (by simp [hX])

/-- **The set of nullable nonterminals is exact.** -/
theorem isIn_nullables_iff {X : Symbol} : X.isIn (nullables rules) = true ↔ g.Nullable [X] := by
  constructor
  · intro h
    cases X with
    | terminal t => exact absurd h (by simp [Symbol.isIn])
    | nonterminal n => exact nullable_of_mem_nullables hrules h
  · intro h
    exact isIn_of_nullable hrules h X List.mem_cons_self

/-! ## FIRST sets -/

/-- A symbol that matters at the beginning passes its first terminals on. -/
theorem first_of_mem_leading {X : Symbol} {t : TerminalId} {α : List Symbol}
    (h : X ∈ leading (nullables rules) α) (hX : g.First [X] t) : g.First α t := by
  induction α with
  | nil => cases h
  | cons Y α ih =>
    rw [leading_cons] at h
    split at h
    · next hnull =>
      rcases List.mem_cons.mp h with rfl | h
      · exact first_cons_iff.mpr (.inl hX)
      · exact first_cons_iff.mpr (.inr ⟨(isIn_nullables_iff hrules).mp hnull, ih h⟩)
    · rw [List.mem_singleton.mp h] at hX
      exact first_cons_iff.mpr (.inl hX)

/-- Every member of a table is the first terminal of some derived string. -/
def TableSound (g : Grammar) (table : Array TerminalSet) : Prop :=
  ∀ X t, t ∈ Symbol.first table X → g.First [X] t

theorem tableSound_firstTable (count : Nat) :
    g.TableSound (firstTable (nullables rules) rules count) := by
  have hreads := FirstSystem.reads_ofRules (nullables rules) rules count
  have hterminal {u t : TerminalId} {table : Array TerminalSet}
      (h : t ∈ Symbol.first table (.terminal u)) : g.First [.terminal u] t :=
    first_terminal_iff.mpr (BitSet.mem_singleton.mp h)
  refine saturate_induction (P := g.TableSound) ?_ fun k hk table hsound => ?_
  · rintro (u | n) t h
    · exact hterminal h
    · obtain ⟨-, rule, hmem, rfl, hlead⟩ := (hreads.mem_first_iff n t).mp h
      obtain ⟨p, hp⟩ := expands_of_mem hrules hmem
      exact hp.first (first_of_mem_leading hrules hlead (first_terminal_iff.mpr rfl))
  · obtain ⟨-, rule, hmem, hleft, hlead⟩ :=
      (hreads.mem_constraints_iff k).mp (Array.mem_toList_iff.mp hk)
    rcases obey_cases table k with heq | ⟨upper, lower, hupper, hlower, -, heq⟩
    · rw [heq]
      exact hsound
    · rw [heq]
      rintro (u | n) t h
      · exact hterminal h
      · obtain ⟨set, hset, ht⟩ := mem_first_nonterminal_iff.mp h
        rw [Array.getElem?_setIfInBounds] at hset
        split at hset
        · next hn =>
          subst hn
          split at hset
          · cases hset
            rcases BitSet.mem_union.mp ht with ht | ht
            · exact hsound _ t (mem_first_nonterminal_iff.mpr ⟨upper, hupper, ht⟩)
            · obtain ⟨p, hp⟩ := expands_of_mem hrules hmem
              rw [← hleft]
              exact hp.first (first_of_mem_leading hrules hlead
                (hsound _ t (mem_first_nonterminal_iff.mpr ⟨lower, hlower, ht⟩)))
          · cases hset
        · exact hsound _ t (mem_first_nonterminal_iff.mpr ⟨set, hset, ht⟩)

omit hrules in
/-- Constraints that are obeyed let a table grow and keep its size. -/
theorem obey_grows (table : Array TerminalSet) (k : FirstConstraint) :
    (obey table k).2.size = table.size ∧
      ∀ X : Symbol, X.first table ⊆ X.first (obey table k).2 := by
  rcases obey_cases table k with heq | ⟨upper, lower, hupper, -, -, heq⟩
  · rw [heq]
    exact ⟨rfl, fun X => BitSet.Subset.refl _⟩
  · rw [heq]
    refine ⟨Array.size_setIfInBounds, ?_⟩
    rintro (u | n) t ht
    · exact ht
    · obtain ⟨set, hset, ht⟩ := mem_first_nonterminal_iff.mp ht
      by_cases hn : k.upper = n
      · subst hn
        cases hupper.symm.trans hset
        refine mem_first_nonterminal_iff.mpr ⟨upper ∪ lower, ?_, BitSet.mem_union.mpr (.inl ht)⟩
        rw [Array.getElem?_setIfInBounds_self, if_pos (Array.getElem?_eq_some_iff.mp hupper).choose]
      · refine mem_first_nonterminal_iff.mpr ⟨set, ?_, ht⟩
        rwa [Array.getElem?_setIfInBounds_ne hn]

omit hrules in
/-- The table has the terminals that come first by one rule. -/
theorem firstTable_grows (nulls : BitSet) (rules : List Rule) (count : Nat) :
    (firstTable nulls rules count).size = count ∧
      ∀ X : Symbol, X.first (FirstSystem.ofRules nulls rules count).table ⊆
        X.first (firstTable nulls rules count) := by
  let Grown (table : Array TerminalSet) : Prop := table.size = count ∧
    ∀ X : Symbol, X.first (FirstSystem.ofRules nulls rules count).table ⊆ X.first table
  refine saturate_induction (P := Grown)
    ⟨(FirstSystem.reads_ofRules nulls rules count).size, fun X => BitSet.Subset.refl _⟩ ?_
  rintro k - table ⟨hsize, hgrown⟩
  obtain ⟨hsame, hgrows⟩ := obey_grows table k
  exact ⟨hsame.trans hsize, fun X => BitSet.Subset.trans (hgrown X) (hgrows X)⟩

omit hrules in
@[simp] theorem size_firstTable (nulls : BitSet) (count : Nat) :
    (firstTable nulls rules count).size = count := (firstTable_grows nulls rules count).1

omit hrules in
/-- A nonterminal has the first terminals of every symbol that matters in a rule for it, as long as
the table has a set for that symbol. -/
theorem first_firstTable_subset {nulls : BitSet} {count : Nat} {rule : Rule} {X : Symbol}
    (hmem : rule ∈ rules) (hleft : rule.left < count) (hX : X ∈ leading nulls rule.right.toList) :
    X.first (firstTable nulls rules count) ⊆
      (Symbol.nonterminal rule.left).first (firstTable nulls rules count) := by
  have hreads := FirstSystem.reads_ofRules nulls rules count
  cases X with
  | terminal u =>
    intro t ht
    refine (firstTable_grows nulls rules count).2 _ t ?_
    obtain rfl : t = u := BitSet.mem_singleton.mp ht
    exact (hreads.mem_first_iff _ _).mpr ⟨hleft, rule, hmem, rfl, hX⟩
  | nonterminal n =>
    by_cases hself : n = rule.left
    · rw [hself]
      exact BitSet.Subset.refl _
    have hk : ⟨rule.left, n⟩ ∈ (FirstSystem.ofRules nulls rules count).constraints :=
      (hreads.mem_constraints_iff _).mpr ⟨hself, rule, hmem, rfl, hX⟩
    have hidle : (obey (firstTable nulls rules count) ⟨rule.left, n⟩).1 = false :=
      step_saturate (Array.mem_toList_iff.mpr hk) _
    intro t ht
    obtain ⟨lower, hlower, ht⟩ := mem_first_nonterminal_iff.mp ht
    obtain ⟨upper, hupper⟩ : ∃ upper, (firstTable nulls rules count)[rule.left]? = some upper :=
      ⟨_, Array.getElem?_eq_getElem (by rwa [size_firstTable])⟩
    exact mem_first_nonterminal_iff.mpr ⟨upper, hupper, subset_of_obey hupper hlower hidle t ht⟩

theorem mem_first_of_first {count : Nat} (hleft : ∀ rule ∈ rules, rule.left < count)
    {α : List Symbol} {t : TerminalId} (h : g.First α t) :
    ∃ X ∈ leading (nullables rules) α, t ∈ X.first (firstTable (nullables rules) rules count) := by
  obtain ⟨rest, h⟩ := h
  induction h using Relation.ReflTransGen.head_induction_on with
  | refl =>
    refine ⟨.terminal t, ?_, BitSet.mem_singleton.mpr rfl⟩
    rw [leading_cons, not_isIn_terminal]
    exact List.mem_singleton.mpr rfl
  | head hstep _ ih =>
    cases hstep with
    | expand h pre post =>
      obtain ⟨rule, hmem, rfl, rfl⟩ := mem_of_expands hrules h
      obtain ⟨X, hX, ht⟩ := ih
      simp only [List.append_assoc, mem_leading_append_iff] at hX ⊢
      have hself : Symbol.nonterminal rule.left ∈
          leading (nullables rules) (.nonterminal rule.left :: post) := by
        rw [leading_cons]
        split <;> simp
      rcases hX with hX | ⟨hpre, hX | ⟨hright, hX⟩⟩
      · exact ⟨X, .inl hX, ht⟩
      · exact ⟨_, .inr ⟨hpre, hself⟩, first_firstTable_subset hmem (hleft rule hmem) hX t ht⟩
      · refine ⟨X, .inr ⟨hpre, ?_⟩, ht⟩
        rw [leading_cons, if_pos (show Symbol.isIn _ (.nonterminal rule.left) = true from
          mem_nullables_of_all hmem hright)]
        exact List.mem_cons_of_mem _ hX

/-- **The table of FIRST sets is exact.** -/
theorem mem_first_firstTable_iff {count : Nat} (hleft : ∀ rule ∈ rules, rule.left < count)
    {X : Symbol} {t : TerminalId} :
    t ∈ X.first (firstTable (nullables rules) rules count) ↔ g.First [X] t := by
  constructor
  · exact tableSound_firstTable hrules count X t
  · intro h
    obtain ⟨Y, hY, ht⟩ := mem_first_of_first hrules hleft h
    rw [leading_cons] at hY
    split at hY <;> simp only [leading_nil, List.mem_singleton] at hY <;> exact hY ▸ ht

end Tables

/-! ## Suffixes of right-hand sides -/

section Suffixes

variable {nulls : BitSet} {table : Array TerminalSet}

/-- The suffix table lists what is known of each suffix, from the whole string on. -/
theorem getElem?_suffixes (symbols : List Symbol) (pos : Nat) :
    (suffixes nulls table symbols)[min pos symbols.length]? =
      some ((symbols.drop pos).foldr (Suffix.cons nulls table) .empty) := by
  induction symbols generalizing pos with
  | nil => simp [suffixes]
  | cons X symbols ih =>
    have hcons : suffixes nulls table (X :: symbols) =
        .cons nulls table X ((suffixes nulls table symbols).headD .empty) ::
          suffixes nulls table symbols := rfl
    cases pos with
    | zero =>
      have hhead := ih 0
      rw [List.drop_zero, Nat.zero_min, ← List.head?_eq_getElem?] at hhead
      rw [hcons, List.drop_zero, Nat.zero_min, List.getElem?_cons_zero, List.foldr_cons,
        List.headD_eq_head?_getD, hhead, Option.getD_some]
    | succ pos =>
      rw [hcons, List.length_cons, Nat.succ_min_succ, List.getElem?_cons_succ, ih,
        List.drop_succ_cons]

variable {g : Grammar} (hnulls : ∀ X, X.isIn nulls = true ↔ g.Nullable [X])

include hnulls

theorem foldr_suffix_nullable_iff (α : List Symbol) :
    (α.foldr (Suffix.cons nulls table) .empty).nullable = true ↔ g.Nullable α := by
  induction α with
  | nil => simp [Suffix.empty, nullable_nil]
  | cons X α ih =>
    rw [List.foldr_cons, Suffix.cons, nullable_cons_iff, ← hnulls X, ← ih]
    split <;> simp_all

theorem mem_foldr_suffix_first_iff (htable : ∀ X t, t ∈ Symbol.first table X ↔ g.First [X] t)
    (α : List Symbol) (t : TerminalId) :
    t ∈ (α.foldr (Suffix.cons nulls table) .empty).first ↔ g.First α t := by
  induction α with
  | nil => simp [Suffix.empty, not_first_nil]
  | cons X α ih =>
    rw [List.foldr_cons, Suffix.cons, first_cons_iff, ← htable X, ← hnulls X, ← ih]
    split
    · next h => simp only [BitSet.mem_union, h, true_and]
    · next h => simp only [h, Bool.false_eq_true, false_and, or_false]

end Suffixes

/-- There is an entry for each suffix, the whole string and the empty one included. -/
theorem length_suffixes (nulls : BitSet) (table : Array TerminalSet) (symbols : List Symbol) :
    (suffixes nulls table symbols).length = symbols.length + 1 := by
  induction symbols with
  | nil => rfl
  | cons X symbols ih => exact congrArg Nat.succ ih

section OfRules

variable (hleft : ∀ rule ∈ rules, rule.left < nonterminals.size + 1)

include hleft

theorem tables_ofRules {n : NonterminalId} {nonterminal : Nonterminal}
    (h : (ofRules terminals nonterminals rules start).nonterminals[n]? = some nonterminal) :
    (nonterminal.nullable = true ↔
      (ofRules terminals nonterminals rules start).Nullable [.nonterminal n]) ∧
    ∀ t, t ∈ nonterminal.first ↔
      (ofRules terminals nonterminals rules start).First [.nonterminal n] t := by
  have hrules := @expands_ofRules_iff terminals nonterminals rules start
  simp only [ofRules, Array.getElem?_mapIdx, Option.map_eq_some_iff] at h
  obtain ⟨name, -, rfl⟩ := h
  exact ⟨isIn_nullables_iff (X := .nonterminal n) fun p n right => hrules,
    fun t => mem_first_firstTable_iff (X := .nonterminal n) (fun p n right => hrules) hleft⟩

/-- Every suffix has an entry, and it is exact. -/
theorem exists_suffix_ofRules {p : ProductionId} {production : Production}
    (h : (ofRules terminals nonterminals rules start).productions[p]? = some production)
    (pos : Nat) : ∃ known, production.suffix pos = .ok known ∧
      known.IsExact (ofRules terminals nonterminals rules start)
        (production.right.toList.drop pos) := by
  have hrules := @expands_ofRules_iff terminals nonterminals rules start
  have hsuffixes : production.suffixes = (suffixes (nullables rules)
      (firstTable (nullables rules) rules (nonterminals.size + 1))
      production.right.toList).toArray := by
    simp only [ofRules, List.getElem?_toArray, List.getElem?_map, Option.map_eq_some_iff] at h
    obtain ⟨rule, -, rfl⟩ := h
    rfl
  have hentry := @getElem?_suffixes (nullables rules)
    (firstTable (nullables rules) rules (nonterminals.size + 1)) production.right.toList pos
  have hnulls (X : Symbol) := isIn_nullables_iff (fun p n right => hrules) (X := X)
  refine ⟨_, Production.suffix_eq_ok_iff.mpr ?_, ⟨foldr_suffix_nullable_iff hnulls _,
    mem_foldr_suffix_first_iff hnulls
      (fun X t => mem_first_firstTable_iff (fun p n right => hrules) hleft) _⟩⟩
  rw [hsuffixes, List.getElem?_toArray, ← hentry, Array.length_toList]

end OfRules

end Grammar

end Lalr
