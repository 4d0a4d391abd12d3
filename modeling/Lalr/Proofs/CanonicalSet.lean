import Lalr.Proofs.Validity
import Mathlib.Data.List.Induction
import Mathlib.Data.Set.Card
import Mathlib.Data.Set.Finite.Lattice

/-!
# The canonical LR(0) collection

The sets of items of the canonical collection, with markers that may stand
anywhere, independent of any automaton.

- `Grammar.CanonicalSet`: the closure of the start of the augmented grammar, and
  what one set leads to by a symbol.
- `Grammar.canonicalSets`: those of them that have an item.
- `canonicalSet_iff`: they are the sets of the items that are valid for a string.
- `finite_canonicalSets`: there are finitely many, as there are finitely many
  places in the right-hand sides for a marker.
-/

namespace Lalr

namespace Grammar

variable {g : Grammar} {X : Symbol} {γ : List Symbol} {x : Dotted} {I : Set Dotted}

/-- The items that are valid for a string. -/
def validItems (g : Grammar) (γ : List Symbol) : Set Dotted := {x | g.Lr0Valid γ x}

/-- The sets of the canonical collection: the closure of the start of the augmented grammar, and
that of the items that arise when markers of a set move over a symbol. -/
inductive CanonicalSet (g : Grammar) : Set Dotted → Prop where
  | start : CanonicalSet g {x | g.Closure (· = ⟨acceptProduction, 0⟩) x}
  | goto {I : Set Dotted} (hI : CanonicalSet g I) (X : Symbol) :
    CanonicalSet g {x | g.Closure (g.Advanced X (· ∈ I)) x}

/-- The sets of the canonical collection that are not empty. -/
def canonicalSets (g : Grammar) : Set (Set Dotted) := {I | g.CanonicalSet I ∧ I.Nonempty}

theorem validItems_nil : g.validItems [] = {x | g.Closure (· = ⟨acceptProduction, 0⟩) x} :=
  Set.ext fun _ => lr0Valid_nil_iff

theorem validItems_concat :
    g.validItems (γ ++ [X]) = {x | g.Closure (g.Advanced X (· ∈ g.validItems γ)) x} :=
  Set.ext fun _ => lr0Valid_concat_iff

/-- **The canonical collection consists of the sets of valid items.** -/
theorem canonicalSet_iff : g.CanonicalSet I ↔ ∃ γ, g.validItems γ = I := by
  constructor
  · intro h
    induction h with
    | start => exact ⟨[], validItems_nil⟩
    | goto _ X ih =>
      obtain ⟨γ, rfl⟩ := ih
      exact ⟨γ ++ [X], validItems_concat⟩
  · rintro ⟨γ, rfl⟩
    induction γ using List.reverseRecOn with
    | nil => exact validItems_nil ▸ .start
    | append_singleton γ X ih => exact validItems_concat ▸ ih.goto X

/-- The places for a marker in the right-hand sides. -/
theorem finite_places (g : Grammar) :
    {x : Dotted | ∃ n right, g.Expands x.production n right ∧ x.dot ≤ right.length}.Finite := by
  let length (p : ProductionId) : Nat :=
    (g.productions[p]?.map fun production => production.right.size).getD 0
  refine ((Set.finite_lt_nat g.productions.size).biUnion fun p _ =>
    (Set.finite_le_nat (length p)).image (Dotted.mk p)).subset ?_
  rintro ⟨p, dot⟩ ⟨n, right, ⟨production, hp, -, rfl⟩, hle⟩
  refine Set.mem_biUnion (Array.getElem?_eq_some_iff.mp hp).choose ⟨dot, ?_, rfl⟩
  simpa [length, hp] using hle

theorem nonempty_canonicalSets : g.canonicalSets.Nonempty :=
  ⟨_, .start, ⟨acceptProduction, 0⟩, .base rfl⟩

theorem finite_canonicalSets (wf : g.WellFormed) : g.canonicalSets.Finite := by
  refine g.finite_places.finite_subsets.subset ?_
  rintro I ⟨hI, -⟩
  obtain ⟨γ, rfl⟩ := canonicalSet_iff.mp hI
  exact fun x hx => Lr0Valid.expands wf hx

end Grammar

end Lalr
