import Prevision.CredalSet
import Prevision.Proofs.Duality.Products
import Prevision.Proofs.Model.Payoffs
import Prevision.Proofs.Model.Probabilities

/-!
# Credal sets that represent desirable gambles

A gamble is accepted if it is at least what the rays generate, in every state
of the possibility space. A credal set represents desirable gambles if these
are the gambles without a negative product with a member.

* `accepts_iff`: the accepted gambles, by the functions that have no negative
  product with a ray or the indicator of a state;
* `CredalSet.Represents`: what the conversions between the two models keep.
-/

namespace Prevision

variable {σ : Type} [State σ] {S : SortedSet σ} {f q : σ → ℚ}

namespace Ray

theorem payoff_unit_self (x : σ) : (unit x).payoff x = 1 :=
  Table.payoff_tabulate.trans (if_pos (SortedSet.mem_singleton.2 rfl))

theorem payoff_unit_of_ne {x y : σ} (ne : y ≠ x) : (unit x).payoff y = 0 :=
  Table.payoff_tabulate.trans (if_neg fun mem => ne (SortedSet.mem_singleton.1 mem))

theorem supports_unit {x : σ} (hx : x ∈ S) : S.Supports (unit x).payoff := fun _ out =>
  payoff_unit_of_ne fun e => out (e ▸ hx)

theorem product_unit {x : σ} (hx : x ∈ S) (q : σ → ℚ) : S.product (unit x).payoff q = q x := by
  rw [SortedSet.product_apply, Finset.sum_eq_single_of_mem x hx fun y _ ne => by
    rw [payoff_unit_of_ne ne, zero_mul], payoff_unit_self, one_mul]

theorem payoff_unit_nonneg (x y : σ) : 0 ≤ (unit x).payoff y := by
  rcases eq_or_ne y x with rfl | ne
  · rw [payoff_unit_self]
    exact zero_le_one
  · exact (payoff_unit_of_ne ne).ge

end Ray

namespace DesirabilitySet

variable (D : DesirabilitySet σ)

/-- The payoffs of the rays. -/
def payoffs : Set (σ → ℚ) := {f | ∃ r ∈ D.generators, f = r.payoff}

/-- The indicators of the states. -/
def units : Set (σ → ℚ) := {f | ∃ x ∈ D.domain, f = (Ray.unit x).payoff}

/-- The gamble is at least what the rays generate. -/
def Accepts (f : σ → ℚ) : Prop := ∃ u, Generated D.payoffs ⊥ u ∧ ∀ x ∈ D.domain, u x ≤ f x

/-- A function on the possibility space without a negative value or a negative product with a ray. -/
structure Compatible (q : σ → ℚ) : Prop where
  supports : D.domain.Supports q
  nonneg : ∀ x, 0 ≤ q x
  products : ∀ r ∈ D.generators, 0 ≤ D.domain.product r.payoff q

variable {D}

theorem finite_payoffs : D.payoffs.Finite :=
  (D.generators.toFinset.finite_toSet.image Ray.payoff).subset fun _ ⟨r, hr, e⟩ => ⟨r, hr, e.symm⟩

theorem finite_units : D.units.Finite :=
  (D.domain.toFinset.finite_toSet.image fun x => (Ray.unit x).payoff).subset fun _ ⟨x, hx, e⟩ =>
    ⟨x, hx, e.symm⟩

theorem supports_of_mem_payoffs (hf : f ∈ D.payoffs) : D.domain.Supports f := by
  obtain ⟨r, hr, rfl⟩ := hf
  exact fun x out => payoff_eq_zero hr out

theorem supports_of_generated (generated : Generated D.payoffs ⊥ f) : D.domain.Supports f :=
  .of_generated generated fun _ => supports_of_mem_payoffs

theorem Compatible.smul (h : D.Compatible q) {c : ℚ} (hc : 0 ≤ c) : D.Compatible (c • q) := by
  refine ⟨fun x out => ?_, fun x => mul_nonneg hc (h.nonneg x), fun r hr => ?_⟩
  · rw [Pi.smul_apply, h.supports x out, smul_zero]
  · rw [map_smul]
    exact mul_nonneg hc (h.products r hr)

theorem compatible_zero (D : DesirabilitySet σ) : D.Compatible 0 :=
  ⟨D.domain.supports_zero, fun _ => le_rfl, fun r _ => (map_zero (D.domain.product r.payoff)).ge⟩

theorem compatible_iff : D.Compatible q ↔
    D.domain.Supports q ∧ ∀ r ∈ D.payoffs ∪ D.units, 0 ≤ D.domain.product r q := by
  constructor
  · rintro ⟨supports, nonneg, products⟩
    refine ⟨supports, ?_⟩
    rintro _ (⟨r, hr, rfl⟩ | ⟨x, hx, rfl⟩)
    · exact products r hr
    · rw [Ray.product_unit hx]
      exact nonneg x
  · rintro ⟨supports, products⟩
    refine ⟨supports, fun x => ?_, fun r hr => products _ (.inl ⟨r, hr, rfl⟩)⟩
    by_cases hx : x ∈ D.domain
    · rw [← Ray.product_unit hx q]
      exact products _ (.inr ⟨x, hx, rfl⟩)
    · exact (supports x hx).ge

/-- What rays and indicators generate is at least what the rays alone generate. -/
theorem exists_le_of_generated (generated : Generated (D.payoffs ∪ D.units) ⊥ f) :
    ∃ u, Generated D.payoffs ⊥ u ∧ ∀ x, u x ≤ f x := by
  refine generated.mem_of_closed (C := {f | ∃ u, Generated D.payoffs ⊥ u ∧ ∀ x, u x ≤ f x})
    (fun l hl => ?_) ?_
  · rw [(Submodule.mem_bot ℚ).1 hl]
    exact ⟨0, .zero, fun _ => le_rfl⟩
  · rintro f ⟨u, hu, le⟩ r (hr | ⟨x, hx, rfl⟩) a ha
    · exact ⟨u + a • r, hu.addRay hr ha, fun x => add_le_add_left (le x) _⟩
    · exact ⟨u, hu, fun y =>
        (le y).trans (le_add_of_nonneg_right (mul_nonneg ha (Ray.payoff_unit_nonneg x y)))⟩

/-- A gamble is accepted unless a function that is compatible with the rays has a negative product with it. -/
theorem accepts_iff : D.Accepts f ↔ ∀ q, D.Compatible q → 0 ≤ D.domain.product f q := by
  constructor
  · rintro ⟨u, generated, le⟩ q compatible
    refine le_trans ?_ (SortedSet.product_mono compatible.nonneg le)
    rw [SortedSet.product_comm]
    refine generated.nonneg_bot ?_
    rintro _ ⟨r, hr, rfl⟩
    rw [SortedSet.product_comm]
    exact compatible.products r hr
  · intro products
    have rays : ∀ r ∈ D.payoffs ∪ D.units, D.domain.Supports r := by
      rintro _ (hr | ⟨x, hx, rfl⟩)
      · exact supports_of_mem_payoffs hr
      · exact Ray.supports_unit hx
    have generated := (generated_iff_products (finite_payoffs.union finite_units) rays
      (D.domain.supports_onlyOn f)).2 fun q supports nonneg => by
        rw [SortedSet.product_onlyOn]
        exact products q (compatible_iff.2 ⟨supports, nonneg⟩)
    obtain ⟨u, hu, le⟩ := exists_le_of_generated generated
    exact ⟨u, hu, fun x hx => (le x).trans (SortedSet.onlyOn_of_mem hx f).le⟩

end DesirabilitySet

namespace CredalSet

/-- The values of the members. -/
def probabilities (K : CredalSet σ) : Set (σ → ℚ) := {q | ∃ p ∈ K.members, q = p.probability}

theorem mem_probabilities {K : CredalSet σ} {p : Pmf σ} (h : p ∈ K.members) :
    p.probability ∈ K.probabilities :=
  ⟨p, h, rfl⟩

/-- The accepted gambles are those without a negative product with a member. -/
structure Represents (K : CredalSet σ) (D : DesirabilitySet σ) : Prop where
  supports : ∀ p ∈ K.members, D.domain.Supports p.probability
  accepts : ∀ f, D.Accepts f ↔ ∀ p ∈ K.members, 0 ≤ D.domain.product f p.probability

theorem mem_domain {K : CredalSet σ} {x : σ} : x ∈ K.domain ↔ ∃ p ∈ K.members, x ∈ p.domain :=
  SortedSet.mem_flatMap

/-- The members are on the possibility space. -/
theorem Represents.mem_domain {K : CredalSet σ} {D : DesirabilitySet σ} {x : σ} (represents : K.Represents D)
    (hx : x ∈ K.domain) : x ∈ D.domain := by
  obtain ⟨p, hp, inside⟩ := CredalSet.mem_domain.1 hx
  exact not_not.1 fun out => Pmf.mem_domain.1 inside (represents.supports p hp x out)

end CredalSet

end Prevision
