import Mathlib.LinearAlgebra.Pi
import Prevision.Proofs.Order.Listings
import Prevision.Proofs.Polyhedron.Separation

/-!
# Products over states

Functions on the states are paired by the sum of their products over finitely
many states. A function that is zero outside these is generated by others of
the kind exactly if it has no negative product with a function that has none
with the others (`generated_iff_products`).
-/

namespace Prevision

variable {σ : Type} [Ordered σ] {S : SortedSet σ} {h q y : σ → ℚ}

namespace SortedSet

/-- The function is zero outside the set. -/
def Supports (S : SortedSet σ) (h : σ → ℚ) : Prop := ∀ x ∉ S, h x = 0

theorem supports_zero (S : SortedSet σ) : S.Supports 0 := fun _ _ => rfl

/-- The sum of the products with a function over the set, as a form. -/
def product (S : SortedSet σ) (h : σ → ℚ) : (σ → ℚ) →ₗ[ℚ] ℚ where
  toFun q := ∑ x ∈ S.toFinset, h x * q x
  map_add' p q := by simp only [Pi.add_apply, mul_add, Finset.sum_add_distrib]
  map_smul' c q := by simp only [Pi.smul_apply, smul_eq_mul, mul_left_comm, Finset.mul_sum, RingHom.id_apply]

theorem product_apply (S : SortedSet σ) (h q : σ → ℚ) : S.product h q = ∑ x ∈ S.toFinset, h x * q x := rfl

theorem product_comm (S : SortedSet σ) (h q : σ → ℚ) : S.product h q = S.product q h := by
  rw [product_apply, product_apply]
  exact Finset.sum_congr rfl fun x _ => mul_comm _ _

theorem product_mono (nonneg : ∀ x, 0 ≤ q x) {g : σ → ℚ} (le : ∀ x ∈ S, g x ≤ h x) :
    S.product g q ≤ S.product h q := by
  rw [product_apply, product_apply]
  exact Finset.sum_le_sum fun x hx => mul_le_mul_of_nonneg_right (le x hx) (nonneg x)

/-- States where one of the functions is zero have no part in a product. -/
theorem product_eq_of_supports {T : SortedSet σ} (hq : T.Supports q) (within : ∀ x ∈ T, x ∈ S)
    (h : σ → ℚ) :
    S.product h q = T.product h q := by
  rw [product_apply, product_apply]
  refine (Finset.sum_subset (toFinset_subset.2 within) fun x _ out => ?_).symm
  rw [hq x out, mul_zero]

/-- The function on a set, and zero outside. -/
def onlyOn (S : SortedSet σ) (h : σ → ℚ) (x : σ) : ℚ := if x ∈ S then h x else 0

theorem onlyOn_of_mem {x : σ} (hx : x ∈ S) (h : σ → ℚ) : S.onlyOn h x = h x := if_pos hx

theorem supports_onlyOn (S : SortedSet σ) (h : σ → ℚ) : S.Supports (S.onlyOn h) := fun _ out => if_neg out

theorem product_onlyOn (S : SortedSet σ) (h q : σ → ℚ) : S.product (S.onlyOn h) q = S.product h q := by
  rw [product_apply, product_apply]
  exact Finset.sum_congr rfl fun x hx => by rw [onlyOn_of_mem (mem_toFinset.1 hx)]

end SortedSet

open SortedSet

theorem SortedSet.Supports.of_generated {R : Set (σ → ℚ)} (generated : Generated R ⊥ y)
    (rays : ∀ r ∈ R, S.Supports r) : S.Supports y := by
  refine generated.mem_of_closed (C := {f | S.Supports f}) (fun l hl x _ => ?_) fun u hu r hr a _ x out => ?_
  · rw [(Submodule.mem_bot ℚ).1 hl, Pi.zero_apply]
  · rw [Pi.add_apply, Pi.smul_apply, hu x out, rays r hr x out, smul_zero, add_zero]

/-! ## Separation -/

/-- A function on the states in a set, from its values there. -/
noncomputable def extendZero (S : SortedSet σ) : ({x // x ∈ S.toFinset} → ℚ) →ₗ[ℚ] (σ → ℚ) :=
  Function.ExtendByZero.linearMap ℚ Subtype.val

/-- The values in a set. -/
def valuesOn (S : SortedSet σ) : (σ → ℚ) →ₗ[ℚ] ({x // x ∈ S.toFinset} → ℚ) :=
  LinearMap.funLeft ℚ ℚ Subtype.val

theorem extendZero_apply (v : {x // x ∈ S.toFinset} → ℚ) (x : {x // x ∈ S.toFinset}) :
    extendZero S v x = v x :=
  Subtype.val_injective.extend_apply v (0 : σ → ℚ) x

theorem supports_extendZero (v : {x // x ∈ S.toFinset} → ℚ) : S.Supports (extendZero S v) := fun x out =>
  Function.extend_apply' v (0 : σ → ℚ) x fun ⟨i, e⟩ => out (e ▸ i.2)

theorem extendZero_valuesOn (hy : S.Supports y) : extendZero S (valuesOn S y) = y := by
  funext x
  by_cases hx : x ∈ S
  · exact extendZero_apply (valuesOn S y) ⟨x, hx⟩
  · rw [supports_extendZero _ x hx, hy x hx]

/-- A form on the values in a set is a product. -/
theorem exists_product (a : Module.Dual ℚ ({x // x ∈ S.toFinset} → ℚ)) :
    ∃ q, S.Supports q ∧ ∀ y, a (valuesOn S y) = S.product y q := by
  classical
  refine ⟨extendZero S fun x => a fun z => if x = z then 1 else 0, supports_extendZero _, fun y => ?_⟩
  rw [LinearMap.pi_apply_eq_sum_univ a, product_apply, ← Finset.sum_coe_sort S.toFinset]
  refine Finset.sum_congr rfl fun x _ => ?_
  rw [extendZero_apply]
  rfl

variable {R : Set (σ → ℚ)}

theorem generated_iff_valuesOn (within : ∀ r ∈ R, S.Supports r) (hy : S.Supports y) :
    Generated R ⊥ y ↔ Generated (valuesOn S '' R) ⊥ (valuesOn S y) := by
  constructor
  · exact fun h => h.map_bot (valuesOn S) fun r hr => .of_mem (Set.mem_image_of_mem _ hr)
  · intro h
    rw [← extendZero_valuesOn hy]
    refine h.map_bot (extendZero S) ?_
    rintro _ ⟨r, hr, rfl⟩
    rw [extendZero_valuesOn (within r hr)]
    exact .of_mem hr

/-- A function on some states is generated by others unless a function separates it from them. -/
theorem generated_iff_products (finite : R.Finite) (within : ∀ r ∈ R, S.Supports r) (hy : S.Supports y) :
    Generated R ⊥ y ↔ ∀ q, S.Supports q → (∀ r ∈ R, 0 ≤ S.product r q) → 0 ≤ S.product y q := by
  constructor
  · intro h q _ rays
    rw [product_comm]
    refine h.nonneg_bot fun r hr => ?_
    rw [product_comm]
    exact rays r hr
  · intro h
    rw [generated_iff_valuesOn within hy, Generated.iff_forms (finite.image _)]
    intro a rays _
    obtain ⟨q, hq, product⟩ := exists_product a
    rw [product]
    refine h q hq fun r hr => ?_
    rw [← product]
    exact rays _ (Set.mem_image_of_mem _ hr)

end Prevision
