import Lalr.Proofs.CanonicalSet
import Mathlib.Data.Fintype.EquivFin
import Mathlib.Logic.Equiv.Fin.Basic
import Mathlib.Logic.Equiv.Fintype

/-!
# Productions under other numbers

Two grammars with the same productions under other numbers derive the same
strings, and what is valid in one of them is valid in the other under the other
number.

- `exists_perm_of_rel`: a relation that is one to one on the first numbers is a
  bijection of numbers. `exists_perm_getElem?_eq`: lists in another order.
- `Grammar.Renamed`: a bijection of the numbers keeps what they expand, and to
  what.
- `Renamed.derives_iff`: it does not matter for derivations.
- `Renamed.lr0Valid_iff`, `Renamed.lr1Valid_iff`: validity.
- `Renamed.ncard_canonicalSets`: the canonical collections have the same size.

Every statement is proved in one direction only; the other direction is that of
the inverse bijection (`Renamed.symm`).
-/

namespace Lalr

/-- A relation that gives each of the first `n` numbers one of them, and no two the same, is a
bijection. -/
theorem exists_perm_of_rel {n : Nat} {R : Nat → Nat → Prop} (total : ∀ i < n, ∃ j < n, R i j)
    (unique : ∀ i < n, ∀ j < n, ∀ k, R i k → R j k → i = j) :
    ∃ σ : Equiv.Perm Nat, (∀ i, σ i < n ↔ i < n) ∧ ∀ i < n, R i (σ i) := by
  choose f hlt hR using total
  let next (i : Fin n) : Fin n := ⟨f i i.isLt, hlt i i.isLt⟩
  have hinjective : Function.Injective next := fun i j heq =>
    Fin.ext (unique i i.isLt j j.isLt (next i) (hR i i.isLt) (heq ▸ hR j j.isLt))
  let e : Equiv.Perm (Fin n) := Equiv.ofBijective next
    (Finite.injective_iff_bijective.mp hinjective)
  have hin (i : Nat) (hi : i < n) : e.extendDomain Fin.equivSubtype i = f i hi :=
    e.extendDomain_apply_image Fin.equivSubtype ⟨i, hi⟩
  refine ⟨e.extendDomain Fin.equivSubtype, fun i => ?_, fun i hi => hin i hi ▸ hR i hi⟩
  by_cases hi : i < n
  · simp only [hin i hi, hlt, hi]
  · rw [e.extendDomain_apply_not_subtype Fin.equivSubtype hi]

/-- A list without repetitions and its entries in another order: each number of the one list has a
number of the other with the same entry. -/
theorem exists_perm_getElem?_eq {α : Type} {as bs : List α} (h : as.Perm bs) (hnodup : as.Nodup) :
    ∃ π : Equiv.Perm Nat, ∀ i, bs[π i]? = as[i]? := by
  have htotal : ∀ i < as.length, ∃ j < as.length, bs[j]? = as[i]? := by
    intro i hi
    obtain ⟨j, hj, heq⟩ := List.getElem_of_mem (h.mem_iff.mp (as.getElem_mem hi))
    refine ⟨j, h.length_eq ▸ hj, ?_⟩
    rw [List.getElem?_eq_getElem hi, List.getElem?_eq_getElem hj, heq]
  have hunique : ∀ i < as.length, ∀ j < as.length, ∀ k : Nat,
      bs[k]? = as[i]? → bs[k]? = as[j]? → i = j := by
    intro i hi j _ k hik hjk
    exact (List.getElem?_inj hi hnodup).mp (hik.symm.trans hjk)
  obtain ⟨π, hlt, hπ⟩ := exists_perm_of_rel (R := fun i j => bs[j]? = as[i]?) htotal hunique
  refine ⟨π, fun i => ?_⟩
  by_cases hi : i < as.length
  · exact hπ i hi
  · have hge : bs.length ≤ π i := by
      have hlength := h.length_eq
      have hiff := hlt i
      omega
    rw [List.getElem?_eq_none (Nat.not_lt.mp hi), List.getElem?_eq_none hge]

/-- The item of the production with the other number. -/
def Dotted.rename (π : ProductionId → ProductionId) (x : Dotted) : Dotted :=
  { x with production := π x.production }

/-- The core of the production with the other number. -/
def Core.rename (π : ProductionId → ProductionId) (c : Core) : Core :=
  { c with production := π c.production }

@[simp] theorem Core.dotted_rename (π : ProductionId → ProductionId) (c : Core) :
    (c.rename π).dotted = c.dotted.rename π := rfl

@[simp] theorem Dotted.rename_symm_rename (π : Equiv.Perm ProductionId) (x : Dotted) :
    (x.rename π).rename π.symm = x := by simp [Dotted.rename]

@[simp] theorem Dotted.rename_rename_symm (π : Equiv.Perm ProductionId) (x : Dotted) :
    (x.rename π.symm).rename π = x := by simp [Dotted.rename]

theorem Dotted.rename_injective (π : Equiv.Perm ProductionId) :
    Function.Injective (Dotted.rename π) :=
  Function.LeftInverse.injective (Dotted.rename_symm_rename π)

@[simp] theorem Core.rename_symm_rename (π : Equiv.Perm ProductionId) (c : Core) :
    (c.rename π).rename π.symm = c := by simp [Core.rename]

namespace Grammar

variable {g g' : Grammar} {π : Equiv.Perm ProductionId} {p : ProductionId} {n : NonterminalId}
variable {X : Symbol} {t : TerminalId} {α β γ : List Symbol} {x : Dotted}

/-- The productions of `g'` are those of `g` under other numbers, and the one that expands the start
of the augmented grammar keeps its number. -/
structure Renamed (π : Equiv.Perm ProductionId) (g g' : Grammar) : Prop where
  expands_iff : ∀ {p n right}, g'.Expands (π p) n right ↔ g.Expands p n right
  accept : π acceptProduction = acceptProduction

namespace Renamed

theorem symm (h : Renamed π g g') : Renamed π.symm g' g := by
  refine ⟨fun {p n right} => ?_, ?_⟩
  · rw [← h.expands_iff, π.apply_symm_apply]
  · rw [Equiv.symm_apply_eq, h.accept]

/-! ## Derivations -/

theorem produces (h : Renamed π g g') (hαβ : g.Produces α β) : g'.Produces α β := by
  cases hαβ with
  | expand hp pre post => exact .expand (h.expands_iff.mpr hp) pre post

theorem derives_iff (h : Renamed π g g') : g'.Derives α β ↔ g.Derives α β :=
  ⟨Relation.ReflTransGen.mono (fun _ _ => h.symm.produces) α β,
    Relation.ReflTransGen.mono (fun _ _ => h.produces) α β⟩

theorem nullable_iff (h : Renamed π g g') : g'.Nullable α ↔ g.Nullable α := h.derives_iff

theorem first_iff (h : Renamed π g g') : g'.First α t ↔ g.First α t :=
  exists_congr fun _ => h.derives_iff

/-! ## Valid items -/

theorem after (h : Renamed π g g') (hx : g.After x X β) : g'.After (x.rename π) X β := by
  obtain ⟨n, right, hp, hdrop⟩ := hx
  exact ⟨n, right, h.expands_iff.mpr hp, hdrop⟩

theorem predicts (h : Renamed π g g') (hx : g.Predicts x p β) :
    g'.Predicts (x.rename π) (π p) β := by
  obtain ⟨n, right, hafter, hp⟩ := hx
  exact ⟨n, right, h.after hafter, h.expands_iff.mpr hp⟩

theorem lr0Valid (h : Renamed π g g') (hx : g.Lr0Valid γ x) : g'.Lr0Valid γ (x.rename π) := by
  induction hx with
  | start =>
    rw [Dotted.rename, h.accept]
    exact .start
  | predict _ hp ih => exact ih.predict (h.predicts hp)
  | shift _ hX ih => exact ih.shift (h.after hX)

theorem lr0Valid_iff (h : Renamed π g g') : g'.Lr0Valid γ (x.rename π) ↔ g.Lr0Valid γ x :=
  ⟨fun hx => x.rename_symm_rename π ▸ h.symm.lr0Valid hx, h.lr0Valid⟩

theorem lr1Valid (h : Renamed π g g') (hx : g.Lr1Valid γ x t) :
    g'.Lr1Valid γ (x.rename π) t := by
  induction hx with
  | start =>
    rw [Dotted.rename, h.accept]
    exact .start
  | first hx hp ht => exact .first (h.lr0Valid hx) (h.predicts hp) (h.first_iff.mpr ht)
  | inherit _ hp hβ ih => exact ih.inherit (h.predicts hp) (h.nullable_iff.mpr hβ)
  | shift _ hX ih => exact ih.shift (h.after hX)

theorem lr1Valid_iff (h : Renamed π g g') : g'.Lr1Valid γ (x.rename π) t ↔ g.Lr1Valid γ x t :=
  ⟨fun hx => x.rename_symm_rename π ▸ h.symm.lr1Valid hx, h.lr1Valid⟩

/-- Something is valid for a string in both grammars or in neither. -/
theorem exists_lr0Valid_iff (h : Renamed π g g') :
    (∃ x, g'.Lr0Valid γ x) ↔ ∃ x, g.Lr0Valid γ x :=
  ⟨fun ⟨_, hx⟩ => ⟨_, h.symm.lr0Valid hx⟩, fun ⟨_, hx⟩ => ⟨_, h.lr0Valid hx⟩⟩

/-! ## The canonical collection -/

theorem validItems_eq (h : Renamed π g g') (γ : List Symbol) :
    g'.validItems γ = Dotted.rename π '' g.validItems γ := by
  refine Set.ext fun x => ⟨fun hx => ?_, ?_⟩
  · exact ⟨x.rename π.symm, h.symm.lr0Valid hx, x.rename_rename_symm π⟩
  · rintro ⟨y, hy, rfl⟩
    exact h.lr0Valid hy

theorem canonicalSets_eq (h : Renamed π g g') :
    g'.canonicalSets = Set.image (Dotted.rename π) '' g.canonicalSets := by
  refine Set.ext fun I => ⟨?_, ?_⟩
  · rintro ⟨hI, hnonempty⟩
    obtain ⟨γ, rfl⟩ := canonicalSet_iff.mp hI
    rw [h.validItems_eq, Set.image_nonempty] at hnonempty
    exact ⟨g.validItems γ, ⟨canonicalSet_iff.mpr ⟨γ, rfl⟩, hnonempty⟩, (h.validItems_eq γ).symm⟩
  · rintro ⟨J, ⟨hJ, hnonempty⟩, rfl⟩
    obtain ⟨γ, rfl⟩ := canonicalSet_iff.mp hJ
    exact ⟨canonicalSet_iff.mpr ⟨γ, h.validItems_eq γ⟩, hnonempty.image _⟩

/-- **The canonical collections have the same size.** -/
theorem ncard_canonicalSets (h : Renamed π g g') :
    g'.canonicalSets.ncard = g.canonicalSets.ncard := by
  rw [h.canonicalSets_eq]
  exact Set.ncard_image_of_injective _ (Set.image_injective.mpr (Dotted.rename_injective π))

end Renamed

end Grammar

end Lalr
