import Lalr.Grammar.First

/-!
# The grammar of a list of rules

The rules of an augmented grammar, in the order of their numbers, determine all that a grammar
knows of its nonterminals and productions.

- `rulesOf`: the numbers of the rules that expand a nonterminal (`mem_rulesOf`).
- `lacksRules`: a nonterminal that is used but never expanded (`lacksRules_iff`).
- `Grammar.ofRules`: the grammar with everything filled in.
-/

namespace Lalr

/-- Whether the nonterminal stands in a right-hand side but is never expanded. -/
def lacksRules (rules : List Rule) (n : NonterminalId) : Bool :=
  rules.all (·.left != n) && rules.any (·.right.contains (.nonterminal n))

theorem lacksRules_iff {rules : List Rule} {n : NonterminalId} :
    lacksRules rules n ↔ (∀ rule ∈ rules, rule.left ≠ n)
      ∧ ∃ rule ∈ rules, Symbol.nonterminal n ∈ rule.right := by
  simp [lacksRules]

/-- The numbers of the rules that expand a nonterminal, in ascending order. -/
def rulesOf (rules : List Rule) (n : NonterminalId) : List ProductionId :=
  rules.zipIdx.filterMap fun (rule, id) => if rule.left == n then some id else none

@[simp] theorem mem_rulesOf {rules : List Rule} {n : NonterminalId} {id : ProductionId} :
    id ∈ rulesOf rules n ↔ ∃ rule, rules[id]? = some rule ∧ rule.left = n := by
  simp only [rulesOf, List.mem_filterMap, Prod.exists, List.mem_zipIdx_iff_getElem?,
    Option.ite_none_right_eq_some, beq_iff_eq, Option.some.injEq]
  exact ⟨fun ⟨rule, _, found, left, same⟩ => ⟨rule, same ▸ found, left⟩,
    fun ⟨rule, found, left⟩ => ⟨rule, id, found, left, rfl⟩⟩

/-- Nothing is listed for a nonterminal exactly when no rule expands it. -/
theorem rulesOf_eq_nil_iff {rules : List Rule} {n : NonterminalId} :
    rulesOf rules n = [] ↔ ∀ rule ∈ rules, rule.left ≠ n := by
  rw [List.eq_nil_iff_forall_not_mem]
  simp only [mem_rulesOf, not_exists, not_and]
  constructor
  · intro absent rule mem
    obtain ⟨id, found⟩ := List.getElem?_of_mem mem
    exact absent id rule found
  · exact fun differ id rule found => differ rule (List.mem_of_getElem? found)

theorem pairwise_rulesOf (rules : List Rule) (n : NonterminalId) :
    (rulesOf rules n).Pairwise (· < ·) := by
  have ids : (rules.zipIdx.map Prod.snd).Pairwise (· < ·) := by
    rw [List.zipIdx_map_snd]
    exact List.pairwise_lt_range'
  rw [rulesOf, List.pairwise_filterMap]
  refine (List.pairwise_map.1 ids).imp ?_
  rintro ⟨rule, id⟩ ⟨rule', id'⟩ less i same i' same'
  obtain ⟨-, same⟩ := Option.ite_none_right_eq_some.1 same
  obtain ⟨-, same'⟩ := Option.ite_none_right_eq_some.1 same'
  cases same
  cases same'
  exact less

namespace Grammar

/-- The grammar with these names from number 1 on and these rules from number 0 on. -/
def ofRules (terminals nonterminals : Array String) (rules : List Rule) (start : NonterminalId) :
    Grammar :=
  let nulls := nullables rules
  let table := firstTable nulls rules (nonterminals.size + 1)
  let production (rule : Rule) : Production :=
    ⟨rule, (suffixes nulls table rule.right.toList).toArray⟩
  { terminals := #[⟨none⟩] ++ terminals.map fun name => ⟨some name⟩
    nonterminals := (#[none] ++ nonterminals.map some).mapIdx fun n name =>
      ⟨name, rulesOf rules n, nulls.contains n, table[n]?.getD ∅⟩
    productions := (rules.map production).toArray
    start := start }

variable {terminals nonterminals : Array String} {rules : List Rule} {start : NonterminalId}

@[simp] theorem size_terminals_ofRules :
    (ofRules terminals nonterminals rules start).terminals.size = terminals.size + 1 := by
  simp [ofRules, Nat.add_comm]

@[simp] theorem size_nonterminals_ofRules :
    (ofRules terminals nonterminals rules start).nonterminals.size = nonterminals.size + 1 := by
  simp [ofRules, Nat.add_comm]

theorem names_nonterminals_ofRules :
    (ofRules terminals nonterminals rules start).nonterminals.toList.map Nonterminal.name =
      none :: nonterminals.toList.map some := by
  have names (ns : List (Option String)) (f : Nat → Option String → Nonterminal)
      (named : ∀ i name, (f i name).name = name) : (ns.mapIdx f).map Nonterminal.name = ns := by
    refine List.ext_getElem? fun i => ?_
    simp [Function.comp_def, named]
  rw [ofRules, Array.toList_mapIdx, names _ _ fun _ _ => rfl]
  simp

@[simp] theorem size_productions_ofRules :
    (ofRules terminals nonterminals rules start).productions.size = rules.length := by
  simp [ofRules]

end Grammar

end Lalr
