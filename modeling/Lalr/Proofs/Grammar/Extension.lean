import Lalr.Proofs.Agreement
import Lalr.Proofs.Grammar.Outcome

/-!
# More rules for what is not reachable

Rules that are added at the end of a definition, for nonterminals that are not
reachable, change nothing that is known of the reachable ones
(`agrees_of_extension`).

- `Grammar.Extends`: the other grammar has more productions, but no more of them
  for reachable nonterminals.
- `Extends.derives_iff`: strings of terminals and reachable nonterminals derive
  the same strings in both. A production of the one grammar leads from such
  strings to such strings, and the other productions of the other grammar never
  come into use.
- `Extends.tables_eq`, `suffixes_congr`: the tables are least fixed points over all
  rules, but exact, so their entries for reachable symbols are equal.
-/

namespace Lalr

namespace Grammar

variable {g g' : Grammar} {p : ProductionId} {n : NonterminalId} {t : TerminalId}
variable {α β right : List Symbol} {X : Symbol}

/-- A reachable nonterminal has an entry in the tables. -/
theorem Reachable.lt_size (wf : g.WellFormed) (hsize : 0 < g.nonterminals.size)
    (h : g.Reachable n) : n < g.nonterminals.size := by
  induction h using Reachable.induct with
  | start => exact hsize
  | use _ hp hmem _ =>
    obtain ⟨nonterminal, hknown⟩ := wf.known hp hmem
    exact (Array.getElem?_eq_some_iff.mp hknown).choose

/-! ## Derivations -/

/-- The nonterminals of the string are reachable. -/
def WithinReach (g : Grammar) (α : List Symbol) : Prop := ∀ n, .nonterminal n ∈ α → g.Reachable n

theorem Reachable.withinReach (h : g.Reachable n) (hp : g.Expands p n right) :
    g.WithinReach right := fun _ hmem => h.use hp hmem

theorem WithinReach.of_mem (h : g.WithinReach α) (hX : X ∈ α) : g.WithinReach [X] := by
  intro n hn
  cases List.mem_singleton.mp hn
  exact h n hX

theorem WithinReach.produces (h : g.WithinReach α) (hαβ : g.Produces α β) : g.WithinReach β := by
  cases hαβ with
  | @expand p m right hp pre post =>
    intro n hn
    rw [List.append_assoc, List.mem_append, List.mem_append] at hn
    rcases hn with hpre | hright | hpost
    · exact h n (List.mem_append_left _ hpre)
    · exact (h m (by simp)).use hp hright
    · exact h n (List.mem_append_right _ (List.mem_cons_of_mem _ hpost))

/-- The grammar `g'` has the productions of `g`, and no others for the nonterminals that are
reachable in `g`. -/
structure Extends (g g' : Grammar) : Prop where
  expands : ∀ {p n right}, g.Expands p n right → g'.Expands p n right
  of_reachable : ∀ {p n right}, g'.Expands p n right → g.Reachable n → g.Expands p n right

namespace Extends

theorem produces (h : g.Extends g') (hαβ : g.Produces α β) : g'.Produces α β := by
  cases hαβ with
  | expand hp pre post => exact .expand (h.expands hp) pre post

theorem of_produces (h : g.Extends g') (hα : g.WithinReach α) (hαβ : g'.Produces α β) :
    g.Produces α β := by
  cases hαβ with
  | @expand p n right hp pre post =>
    exact .expand (h.of_reachable hp (hα n (by simp))) pre post

theorem derives_iff (h : g.Extends g') (hα : g.WithinReach α) : g'.Derives α β ↔ g.Derives α β := by
  constructor
  · intro hαβ
    suffices hboth : g.Derives α β ∧ g.WithinReach β from hboth.1
    induction hαβ with
    | refl => exact ⟨.refl, hα⟩
    | tail _ hstep ih =>
      have hstep := h.of_produces ih.2 hstep
      exact ⟨ih.1.tail hstep, ih.2.produces hstep⟩
  · exact Relation.ReflTransGen.mono (fun _ _ => h.produces) α β

theorem nullable_iff (h : g.Extends g') (hα : g.WithinReach α) : g'.Nullable α ↔ g.Nullable α :=
  h.derives_iff hα

theorem first_iff (h : g.Extends g') (hα : g.WithinReach α) : g'.First α t ↔ g.First α t :=
  exists_congr fun _ => h.derives_iff hα

end Extends

/-! ## Tables -/

/-- What the tables say of symbols within reach is the same: all rules take part in them, but what
they say is what is derived. -/
theorem Extends.tables_eq {rules rules' : List Rule} {count count' : Nat} (h : g.Extends g')
    (hrules : ∀ p n right, g.Expands p n right ↔
      ∃ rule, rules[p]? = some rule ∧ rule.left = n ∧ rule.right.toList = right)
    (hrules' : ∀ p n right, g'.Expands p n right ↔
      ∃ rule, rules'[p]? = some rule ∧ rule.left = n ∧ rule.right.toList = right)
    (hleft : ∀ rule ∈ rules, rule.left < count) (hleft' : ∀ rule ∈ rules', rule.left < count')
    (hX : g.WithinReach [X]) :
    X.isIn (nullables rules') = X.isIn (nullables rules) ∧
      X.first (firstTable (nullables rules') rules' count') =
        X.first (firstTable (nullables rules) rules count) := by
  constructor
  · rw [Bool.eq_iff_iff, isIn_nullables_iff hrules', isIn_nullables_iff hrules, h.nullable_iff hX]
  · refine BitSet.ext fun t => ?_
    rw [mem_first_firstTable_iff hrules' hleft', mem_first_firstTable_iff hrules hleft,
      h.first_iff hX]

/-- The suffix table depends on what is known of the symbols of the string only. -/
theorem suffixes_congr {nulls nulls' : BitSet} {table table' : Array TerminalSet}
    (h : ∀ X ∈ α, X.isIn nulls' = X.isIn nulls ∧ X.first table' = X.first table) :
    suffixes nulls' table' α = suffixes nulls table α := by
  induction α with
  | nil => rfl
  | cons X α ih =>
    obtain ⟨hisIn, hfirst⟩ := h X List.mem_cons_self
    have hrest := ih fun Y hY => h Y (List.mem_cons_of_mem X hY)
    show Suffix.cons nulls' table' X ((suffixes nulls' table' α).headD .empty) ::
        suffixes nulls' table' α =
      Suffix.cons nulls table X ((suffixes nulls table α).headD .empty) :: suffixes nulls table α
    rw [hrest, Suffix.cons, Suffix.cons, hisIn, hfirst]

theorem getElem?_productions_ofRules (terminals nonterminals : Array String) (rules : List Rule)
    (start : NonterminalId) (p : ProductionId) :
    (ofRules terminals nonterminals rules start).productions[p]? = rules[p]?.map fun rule =>
      ⟨rule, (suffixes (nullables rules) (firstTable (nullables rules) rules
        (nonterminals.size + 1)) rule.right.toList).toArray⟩ := by
  simp [ofRules]

theorem getElem?_nonterminals_ofRules (terminals nonterminals : Array String) (rules : List Rule)
    (start n : NonterminalId) :
    (ofRules terminals nonterminals rules start).nonterminals[n]? =
      (#[none] ++ nonterminals.map some)[n]?.map fun name =>
        ⟨name, rulesOf rules n, (nullables rules).contains n,
          (firstTable (nullables rules) rules (nonterminals.size + 1))[n]?.getD ∅⟩ := by
  rw [ofRules, Array.getElem?_mapIdx]

/-- Rules at the end that do not expand a nonterminal do not show in its rules. -/
theorem rulesOf_append {rules more : List Rule} (h : ∀ rule ∈ more, rule.left ≠ n) :
    rulesOf (rules ++ more) n = rulesOf rules n := by
  rw [rulesOf, List.zipIdx_append, List.filterMap_append, ← rulesOf]
  refine (congrArg (rulesOf rules n ++ ·) (List.filterMap_eq_nil_iff.mpr ?_)).trans
    (List.append_nil _)
  rintro ⟨rule, id⟩ hmem
  have hleft : rule.left ≠ n := h rule (List.fst_mem_of_mem_zipIdx hmem)
  simp [hleft]

section OfRules

variable {terminals terminals' nonterminals news : Array String} {rules more : List Rule}
variable {start : NonterminalId}

theorem extends_ofRules
    (hmore : ∀ rule ∈ more, ¬(ofRules terminals nonterminals rules start).Reachable rule.left) :
    (ofRules terminals nonterminals rules start).Extends
      (ofRules terminals' (nonterminals ++ news) (rules ++ more) start) := by
  constructor
  · intro p n right hp
    obtain ⟨rule, hrule, hleft, hright⟩ := expands_ofRules_iff.mp hp
    have hlt : p < rules.length := (List.getElem?_eq_some_iff.mp hrule).choose
    have hsame : (rules ++ more)[p]? = rules[p]? := List.getElem?_append_left hlt
    exact expands_ofRules_iff.mpr ⟨rule, hsame.trans hrule, hleft, hright⟩
  · intro p n right hp hn
    obtain ⟨rule, hrule, rfl, hright⟩ := expands_ofRules_iff.mp hp
    rw [List.getElem?_append] at hrule
    split at hrule
    · exact expands_ofRules_iff.mpr ⟨rule, hrule, rfl, hright⟩
    · exact absurd hn (hmore rule (List.mem_of_getElem? hrule))

/-- **More rules for nonterminals that are not reachable leave the records of reachable ones and of
their productions as they are.** -/
theorem agrees_ofRules (haugmented : AugmentedRules rules start (nonterminals.size + 1))
    (haugmented' : AugmentedRules (rules ++ more) start ((nonterminals ++ news).size + 1))
    (hmore : ∀ rule ∈ more, ¬(ofRules terminals nonterminals rules start).Reachable rule.left) :
    (ofRules terminals nonterminals rules start).Agrees
      (ofRules terminals' (nonterminals ++ news) (rules ++ more) start) := by
  have hextends : (ofRules terminals nonterminals rules start).Extends
      (ofRules terminals' (nonterminals ++ news) (rules ++ more) start) := extends_ofRules hmore
  have htables {X : Symbol} (hX : (ofRules terminals nonterminals rules start).WithinReach [X]) :=
    hextends.tables_eq (fun _ _ _ => expands_ofRules_iff) (fun _ _ _ => expands_ofRules_iff)
      haugmented.left_lt haugmented'.left_lt hX
  constructor
  case exists_nonterminal =>
    intro n hn
    have hlt := hn.lt_size haugmented.wellFormed (by simp)
    have hknown := Array.getElem?_eq_getElem hlt
    refine ⟨_, hknown, hknown ▸ ?_⟩
    obtain ⟨hnullable, hfirst⟩ := htables (X := .nonterminal n) fun m hm => by
      cases List.mem_singleton.mp hm
      exact hn
    have hname : (#[none] ++ (nonterminals ++ news).map some)[n]? =
        (#[none] ++ nonterminals.map some)[n]? := by
      have hlt : n < (#[none] ++ nonterminals.map some).size := by simpa [Nat.add_comm] using hlt
      rw [Array.map_append, ← Array.append_assoc, Array.getElem?_append_left hlt]
    have hproductions : rulesOf (rules ++ more) n = rulesOf rules n :=
      rulesOf_append fun rule hmem heq => hmore rule hmem (heq ▸ hn)
    rw [getElem?_nonterminals_ofRules, getElem?_nonterminals_ofRules, hname, hproductions]
    simp only [Symbol.isIn, Symbol.first] at hnullable hfirst
    rw [hnullable, hfirst]
  case exists_production =>
    intro p n right hp hn
    obtain ⟨rule, hrule, rfl, rfl⟩ := expands_ofRules_iff.mp hp
    have hlt : p < rules.length := (List.getElem?_eq_some_iff.mp hrule).choose
    refine ⟨_, by rw [getElem?_productions_ofRules, hrule]; rfl, ?_⟩
    rw [getElem?_productions_ofRules, List.getElem?_append_left hlt, hrule, Option.map_some,
      suffixes_congr fun X hX => htables ((hn.withinReach hp).of_mem hX)]

end OfRules

end Grammar

/-! ## Definitions that go on -/

open Definition in
/-- A definition that goes on with the same start symbol, and with rules for nonterminals that are
not reachable, defines a grammar that agrees on everything that is. -/
theorem agrees_of_extension {steps more : List Step} {g g' : Grammar}
    (hg : Grammar.define steps = .ok g) (hg' : Grammar.define (steps ++ more) = .ok g')
    (hstart : g'.start = g.start)
    (hmore : ∀ left right, .rule left right ∈ more → ¬g.Reachable left) : g.Agrees g' := by
  have hmore (rule : Rule) (hmem : rule ∈ declaredRules more) : ¬g.Reachable rule.left := by
    obtain ⟨step, hstep, hrule⟩ := List.mem_filterMap.mp hmem
    cases step <;> cases hrule
    exact hmore _ _ hstep
  have hnonterminals : (declared (steps ++ more)).nonterminals =
      (declared steps).nonterminals ++ (nonterminalNames more).toArray := by
    simp [declared, nonterminalNames]
  have hrules (start : NonterminalId) : (declared (steps ++ more)).augmentedRules start =
      (declared steps).augmentedRules start ++ declaredRules more := by
    simp [augmentedRules, declared, declaredRules]
  obtain ⟨rfl, haugmented⟩ := eq_ofRules_of_define hg
  obtain ⟨rfl, haugmented'⟩ := eq_ofRules_of_define hg'
  have hstart : startOf (steps ++ more) = startOf steps := hstart
  rw [hstart, hrules, hnonterminals] at haugmented' ⊢
  exact Grammar.agrees_ofRules haugmented haugmented' hmore

end Lalr
