import Prevision.Proofs.Duality.Closure
import Prevision.Proofs.Polyhedron.Redundancy

/-!
# Redundant members and round trips

A credal set stands for the mixtures of its members, and the extreme points
of these are members. Whether a member is one of them is decided by a rank
(`CredalSet.exists_discardRedundant`). The desirable gambles of a credal set
and the credal set of these are dual cones, and the way there and back leaves
just the extreme points (`CredalSet.roundTrip_eq_extremePoints`).
-/

namespace Prevision

open Description (fault?_of_no_line flaggedRows_of_no_line width_of_no_line)
open DoubleDescription (constraints definesFacet definesFacet_iff forms redundantRows scanRows tightRays)
open Enumeration (Generators generators generators_error generators_spec)
open Row (toForm toVector)
open Duality

variable {σ : Type} [State σ] {S : SortedSet σ} {K : CredalSet σ} {p : Pmf σ} {limits : Limits}

/-! ## Functions as forms -/

namespace Duality

theorem toForm_lifted (c : ℚ) (q : σ → ℚ) (y : Fin (S.size + 1) → ℚ) :
    toForm _ (lifted c q S.toList) y = c * y 0 + S.product q (onStates S y) := by
  rw [Row.toForm_eq_dot, dot_lifted, Row.entry_ofFn_zero, Row.toVector_ofFn]

/-- A function on the states as a form: its total times the height plus its product. -/
noncomputable def valueForm (S : SortedSet σ) :
    (σ → ℚ) →ₗ[ℚ] Module.Dual ℚ (Fin (S.size + 1) → ℚ) where
  toFun q := toForm _ (lifted (∑ x ∈ S.toFinset, q x) q S.toList)
  map_add' p q := LinearMap.ext fun y => by
    rw [LinearMap.add_apply, toForm_lifted, toForm_lifted, toForm_lifted, S.product_comm (p + q), map_add,
      S.product_comm _ p, S.product_comm _ q]
    simp only [Pi.add_apply, Finset.sum_add_distrib]
    ring
  map_smul' c q := LinearMap.ext fun y => by
    rw [LinearMap.smul_apply, toForm_lifted, toForm_lifted, S.product_comm (c • q), map_smul,
      S.product_comm _ q]
    simp only [Pi.smul_apply, smul_eq_mul, ← Finset.mul_sum, RingHom.id_apply]
    ring

/-- The values of a form on the axes of the states. -/
noncomputable def formValues (S : SortedSet σ) :
    Module.Dual ℚ (Fin (S.size + 1) → ℚ) →ₗ[ℚ] (σ → ℚ) where
  toFun a := onStates S fun i => a (Pi.single i 1)
  map_add' a b := map_add (onStates S) (fun i => a (Pi.single i 1)) fun i => b (Pi.single i 1)
  map_smul' c a := map_smul (onStates S) c fun i => a (Pi.single i 1)

theorem formValues_toForm (row : Row) : formValues S (toForm _ row) = onStates S (toVector _ row) := by
  refine congrArg (onStates S) (funext fun i => ?_)
  show toForm _ row (Pi.single i 1) = Row.entry row i
  rw [Row.toForm_apply, Finset.sum_eq_single i (fun j _ ne => by rw [Pi.single_eq_of_ne ne, mul_zero])
    (fun out => absurd (Finset.mem_univ i) out), Pi.single_eq_same, mul_one]

/-- Lifted to height one, a mass function is the form that it is as a function. -/
theorem valueForm_probability (within : ∀ x ∈ p.domain, x ∈ S) :
    valueForm S p.probability = toForm _ (lifted 1 p.probability S.toList) := by
  show toForm _ (lifted (∑ x ∈ S.toFinset, p.probability x) p.probability S.toList) = _
  rw [Pmf.sum_probability within]

end Duality

namespace CredalSet

theorem mem_domain_of_mem {x : σ} (hp : p ∈ K.members) (hx : x ∈ p.domain) : x ∈ K.domain :=
  mem_domain.2 ⟨p, hp, hx⟩

theorem supports_domain (hp : p ∈ K.members) : K.domain.Supports p.probability := fun _ out =>
  Pmf.probability_eq_zero fun inside => out (mem_domain_of_mem hp inside)

theorem finite_probabilities (K : CredalSet σ) : K.probabilities.Finite :=
  (K.members.toFinset.finite_toSet.image Pmf.probability).subset fun _ ⟨p, hp, e⟩ => ⟨p, hp, e.symm⟩

theorem mem_probabilities_iff : p.probability ∈ K.probabilities ↔ p ∈ K.members :=
  ⟨fun ⟨_, hq, e⟩ => Pmf.probability_injective e ▸ hq, mem_probabilities⟩

/-- The members have height one where all probabilities are added up. -/
theorem total_probability (within : ∀ x ∈ p.domain, x ∈ S) : S.product (fun _ => 1) p.probability = 1 := by
  rw [SortedSet.product_apply]
  exact (Finset.sum_congr rfl fun x _ => one_mul _).trans (Pmf.sum_probability within)

theorem probability_height (K : CredalSet σ) :
    ∀ q ∈ K.probabilities, K.domain.product (fun _ => 1) q = 1 := by
  rintro _ ⟨p, hp, rfl⟩
  exact total_probability fun x => mem_domain_of_mem hp

/-- A member is an extreme point of the mixtures exactly if it is extreme in the cone of the members. -/
theorem mem_extremePoints_iff (hp : p ∈ K.members) :
    p.probability ∈ (convexHull ℚ K.probabilities).extremePoints ℚ ↔
      IsExtremeIn (Generated K.probabilities ⊥) p.probability := by
  rw [Prevision.mem_extremePoints_iff K.probability_height,
    and_iff_right (Generated.of_mem (mem_probabilities hp)),
    and_iff_right (K.probability_height _ (mem_probabilities hp))]

/-! ## Redundant members -/

/-- The row of a member in the description of the convex hull. -/
def hullRow (K : CredalSet σ) (p : Pmf σ) : Row := lifted 1 p.probability K.domain.toList

theorem rows_hull (K : CredalSet σ) : (hull K).rows = K.members.toList.map K.hullRow := rfl

theorem length_of_mem_hull {row : Row} (hr : row ∈ (hull K).rows) : row.length = K.domain.size + 1 := by
  obtain ⟨p, -, rfl⟩ := List.mem_map.1 hr
  exact length_lifted 1 p.probability K.domain

theorem rows_hull_ne_nil (some_member : K.members.isEmpty = false) : (hull K).rows ≠ [] := by
  obtain ⟨p, hp⟩ := SortedSet.isEmpty_eq_false_iff.1 some_member
  exact List.ne_nil_of_mem (List.mem_map_of_mem hp)

theorem width_hull (some_member : K.members.isEmpty = false) : (hull K).width = K.domain.size + 1 :=
  width_of_no_line (rows_hull_ne_nil some_member) fun _ => length_of_mem_hull

theorem fault?_hull (some_member : K.members.isEmpty = false) : (hull K).fault? = none :=
  fault?_of_no_line (Nat.succ_ne_zero _) (rows_hull_ne_nil some_member) fun _ => length_of_mem_hull

theorem constraints_hull (K : CredalSet σ) :
    constraints (hull K) = (hull K).rows.map fun row => (row, false) :=
  flaggedRows_of_no_line .generators _

/-- The forms of the rows are the members as functions. -/
theorem forms_hull (K : CredalSet σ) : forms _ (hull K).rows = valueForm K.domain '' K.probabilities := by
  ext a
  constructor
  · rintro ⟨_, hr, rfl⟩
    obtain ⟨p, hp, rfl⟩ := List.mem_map.1 hr
    exact ⟨_, mem_probabilities hp, valueForm_probability fun x => mem_domain_of_mem hp⟩
  · rintro ⟨_, ⟨p, hp, rfl⟩, rfl⟩
    exact ⟨_, List.mem_map_of_mem hp, valueForm_probability fun x => mem_domain_of_mem hp⟩

theorem formValues_hullRow (hp : p ∈ K.members) :
    formValues K.domain (toForm _ (K.hullRow p)) = p.probability := by
  rw [formValues_toForm, hullRow, onStates_lifted (supports_domain hp)]

/-- All rows are one at the apex. -/
theorem toForm_apex {row : Row} (hr : row ∈ (hull K).rows) :
    toForm (K.domain.size + 1) row (toVector _ (lifted 1 0 K.domain.toList)) = 1 := by
  obtain ⟨p, -, rfl⟩ := List.mem_map.1 hr
  rw [Row.toForm_toVector _ (length_lifted 1 0 K.domain), dot_lifted,
    onStates_lifted K.domain.supports_zero, map_zero, add_zero, one_mul]
  rfl

section Generators

variable {g : Generators} (spans : g.Spans (K.domain.size + 1) ((hull K).rows.map fun row => (row, false)))

include spans

/-- A member defines a facet exactly if it is an extreme point of the mixtures. -/
theorem definesFacet_hullRow_iff (hp : p ∈ K.members) : definesFacet g (K.hullRow p) = true ↔
    p.probability ∈ (convexHull ℚ K.probabilities).extremePoints ℚ := by
  have row : K.hullRow p ∈ (hull K).rows := List.mem_map_of_mem hp
  have form := valueForm_probability fun x => mem_domain_of_mem hp (x := x)
  have back : ∀ q ∈ K.probabilities, formValues K.domain (valueForm K.domain q) = q := by
    rintro _ ⟨p, hp, rfl⟩
    rw [valueForm_probability fun x => mem_domain_of_mem hp]
    exact formValues_hullRow hp
  rw [definesFacet_iff spans (fun _ => toForm_apex) row, forms_hull, mem_extremePoints_iff hp,
    ← isExtremeIn_image_iff _ _ back (.of_mem (mem_probabilities hp)), form]
  rfl

/-- The rows of two members do not define the same facet. -/
theorem pairwise_hull : (hull K).rows.Pairwise fun r s =>
    definesFacet g r → definesFacet g s → tightRays g.rays r ≠ tightRays g.rays s := by
  rw [rows_hull, List.pairwise_map]
  refine List.Pairwise.imp_of_mem (fun {p q} hp hq ne facet _ same => ne ?_) K.members.nodup
  have forms :=
    DoubleDescription.toForm_eq_of_tightRays_eq spans (fun _ => toForm_apex) (List.mem_map_of_mem hp)
    (List.mem_map_of_mem hq) facet same
  have values : formValues K.domain (toForm _ (K.hullRow p)) = formValues K.domain (toForm _ (K.hullRow q)) :=
    congrArg (formValues K.domain) forms
  rw [formValues_hullRow hp, formValues_hullRow hq] at values
  exact Pmf.probability_injective values

/-- The members at the positions of redundant rows are those that are no extreme points. -/
theorem mem_membersAt_scanRows : p ∈ K.membersAt (.ofList (scanRows g (hull K).flaggedRows 0 [])) ↔
    p ∈ K.members ∧ p.probability ∉ (convexHull ℚ K.probabilities).extremePoints ℚ := by
  have scan (i : ℕ) := DoubleDescription.mem_scanRows_iff (i := i) (pairwise_hull spans)
  rw [hull, flaggedRows_of_no_line, membersAt, List.mem_filterMap]
  simp only [SortedSet.mem_toList, SortedSet.mem_ofList]
  constructor
  · rintro ⟨i, hi, at_i⟩
    have hp : p ∈ K.members := List.mem_of_getElem? at_i
    obtain ⟨row, at_row, none⟩ := (scan i).1 hi
    rw [rows_hull, List.getElem?_map, at_i, Option.map_some, Option.some.injEq] at at_row
    rw [← at_row, Bool.eq_false_iff, ne_eq, definesFacet_hullRow_iff spans hp] at none
    exact ⟨hp, none⟩
  · rintro ⟨hp, none⟩
    obtain ⟨i, at_i⟩ := List.mem_iff_getElem?.1 hp
    refine ⟨i, (scan i).2 ⟨K.hullRow p, ?_, ?_⟩, at_i⟩
    · rw [rows_hull, List.getElem?_map, at_i, Option.map_some]
    · rwa [Bool.eq_false_iff, ne_eq, definesFacet_hullRow_iff spans hp]

end Generators

theorem mem_foldl_erase {ps : List (Pmf σ)} : p ∈ (ps.foldl erase K).members ↔ p ∈ K.members ∧ p ∉ ps := by
  induction ps generalizing K with
  | nil => simp
  | cons q ps ih =>
    have erased : p ∈ (K.erase q).members ↔ p ∈ K.members ∧ p ≠ q := SortedSet.mem_erase
    rw [List.foldl_cons, ih, erased, List.mem_cons, not_or, and_assoc]

/-- The members at the positions of redundant rows are removed, unless there are too many rays. -/
theorem run_discardRedundant_or_limit (some_member : K.members.isEmpty = false) :
    (∃ g : Generators, g.Spans (K.domain.size + 1) ((hull K).rows.map fun row => (row, false)) ∧
      ∃ ps, ps = K.membersAt (.ofList (scanRows g (hull K).flaggedRows 0 [])) ∧
        ((Reasoner.within limits).discardRedundant K).run = .ok (ps.foldl erase K, ps.length)) ∨
    ((Reasoner.within limits).discardRedundant K).run = .error (.enumerationLimit limits.maxRays) := by
  have query : (Reasoner.within limits).discardRedundant K =
      ((ExceptT.mk (redundantRows limits.maxRays (hull K)) : Query Id (SortedSet ℕ)) >>= fun positions =>
        pure ((K.membersAt positions).foldl erase K, (K.membersAt positions).length)) := by
    rw [Reasoner.discardRedundant, CredalSet.discardRedundant, some_member, if_neg Bool.false_ne_true]
    rfl
  rw [query]
  have asked : redundantRows limits.maxRays (hull K) = (do
      let g ← generators limits.maxRays (hull K).width (constraints (hull K))
      return .ofList (scanRows g (hull K).flaggedRows 0 [])) := by
    rw [redundantRows, fault?_hull some_member]
  rw [width_hull some_member, constraints_hull] at asked
  cases found : generators limits.maxRays (K.domain.size + 1) ((hull K).rows.map fun row => (row, false)) with
  | error e =>
    rw [found, generators_error found] at asked
    exact .inr (Query.run_bind_error asked)
  | ok g =>
    rw [found] at asked
    exact .inl ⟨g, generators_spec found, _, rfl, Query.run_bind_ok asked⟩

/-- Within the limits, the members at the positions of redundant rows are removed. -/
theorem run_discardRedundant (some_member : K.members.isEmpty = false)
    (fits : ((Reasoner.within limits).discardRedundant K).hitsLimit = false) :
    ∃ g : Generators, g.Spans (K.domain.size + 1) ((hull K).rows.map fun row => (row, false)) ∧
      ∃ ps, ps = K.membersAt (.ofList (scanRows g (hull K).flaggedRows 0 [])) ∧
        ((Reasoner.within limits).discardRedundant K).run = .ok (ps.foldl erase K, ps.length) :=
  Query.resolve_limit fits (run_discardRedundant_or_limit some_member)

/-- Within the limits, the members that are kept are those that are extreme points of the mixtures. -/
theorem exists_discardRedundant (some_member : K.members.isEmpty = false)
    (fits : ((Reasoner.within limits).discardRedundant K).hitsLimit = false) :
    ∃ (K' : CredalSet σ) (removed : ℕ),
      ((Reasoner.within limits).discardRedundant K).run = .ok (K', removed) ∧
      ∀ p, p ∈ K'.members ↔
        p ∈ K.members ∧ p.probability ∈ (convexHull ℚ K.probabilities).extremePoints ℚ := by
  obtain ⟨g, spans, ps, rfl, run⟩ := run_discardRedundant some_member fits
  refine ⟨_, _, run, fun p => ?_⟩
  rw [mem_foldl_erase, mem_membersAt_scanRows spans]
  tauto

/-! ## There and back -/

variable {D : DesirabilitySet σ} {q : σ → ℚ}

/-- The functions compatible with the desirable gambles of a credal set are those that its members
generate. -/
theorem compatible_iff_generated (closure : D.IsClosure K K.domain) :
    D.Compatible q ↔ Generated K.probabilities ⊥ q := by
  have supports : ∀ f ∈ K.probabilities, K.domain.Supports f := by
    rintro _ ⟨p, hp, rfl⟩
    exact supports_domain hp
  constructor
  · intro compatible
    have inside := compatible.supports
    rw [closure.domain_eq] at inside
    refine (generated_iff_products K.finite_probabilities supports inside).2 fun f hf products => ?_
    have generated := (closure.generates f hf).2 fun p hp => by
      rw [SortedSet.product_comm]
      exact products _ (mem_probabilities hp)
    refine generated.nonneg_bot ?_
    rintro _ ⟨r, hr, rfl⟩
    rw [SortedSet.product_comm, ← closure.domain_eq]
    exact compatible.products r hr
  · intro generated
    refine ⟨?_, fun x => ?_, fun r hr => ?_⟩
    · rw [closure.domain_eq]
      exact .of_generated generated supports
    · refine generated.nonneg_bot (f := LinearMap.proj x) ?_
      rintro _ ⟨p, -, rfl⟩
      exact p.probability_nonneg x
    · rw [closure.domain_eq]
      refine generated.nonneg_bot ?_
      rintro _ ⟨p, hp, rfl⟩
      exact (closure.generates _ (closure.supports r hr)).1 (.of_mem ⟨r, hr, rfl⟩) p hp

/-- The members of the credal set of the desirable gambles of another are the extreme points of
its mixtures. -/
theorem probabilities_eq_extremePoints {K' : CredalSet σ} (closure : D.IsClosure K K.domain)
    (polar : K'.IsPolar D) :
    K'.probabilities = (convexHull ℚ K.probabilities).extremePoints ℚ := by
  have member {p : Pmf σ} (hp : p ∈ K'.members) : ∀ x ∈ p.domain, x ∈ K.domain := fun x inside => by
    rw [← closure.domain_eq]
    exact not_not.1 fun out => Pmf.mem_domain.1 inside ((polar.compatible p hp).supports x out)
  refine eq_extremePoints (τ := K.domain.product fun _ => 1) ?_ (fun q => ⟨fun h => ?_, fun h => ?_⟩) ?_ ?_
  · rintro _ ⟨p, hp, rfl⟩
    exact total_probability fun x => mem_domain_of_mem hp
  · refine h.trans ?_ le_rfl
    rintro _ ⟨p, hp, rfl⟩
    exact (compatible_iff_generated closure).1 (polar.compatible p hp)
  · exact polar.generates q ((compatible_iff_generated closure).2 h)
  · rintro _ ⟨p, hp, rfl⟩
    exact total_probability (member hp)
  · rintro _ ⟨p, hp, rfl⟩ u v hu hv sum
    exact polar.extreme p hp u v ((compatible_iff_generated closure).2 hu)
      ((compatible_iff_generated closure).2 hv) sum

theorem exists_mem_domain (some_member : K.members.isEmpty = false) : K.domain.isEmpty = false := by
  obtain ⟨p, hp⟩ := SortedSet.isEmpty_eq_false_iff.1 some_member
  by_contra none
  rw [Bool.not_eq_false, SortedSet.eq_empty_iff] at none
  have total := Pmf.sum_probability (p := p) (S := K.domain) fun x => mem_domain_of_mem hp
  rw [Finset.sum_eq_zero fun x hx => absurd hx (none x)] at total
  exact zero_ne_one total

/-- The way to desirable gambles and back leaves the extreme points of the mixtures of the
members, and so does the removal of the redundant members. -/
theorem roundTrip_eq_extremePoints (some_member : K.members.isEmpty = false)
    (conversion : ((Reasoner.within limits).toDesirabilitySet K >>=
      fun D => (Reasoner.within limits).toCredalSet D).hitsLimit = false)
    (removal : ((Reasoner.within limits).discardRedundant K).hitsLimit = false) :
    ∃ (K' : CredalSet σ) (removed : ℕ),
      ((Reasoner.within limits).toDesirabilitySet K >>= fun D =>
        (Reasoner.within limits).toCredalSet D).run = .ok K' ∧
      ((Reasoner.within limits).discardRedundant K).run = .ok (K', removed) ∧
      ∀ p, p ∈ K'.members ↔ p.probability ∈ (convexHull ℚ K.probabilities).extremePoints ℚ := by
  have space : (Query.ofExcept (m := Id) K.possibilitySpace).run = .ok K.domain := by
    show K.possibilitySpace = _
    rw [possibilitySpace, some_member, if_neg Bool.false_ne_true]
  have query :
      (Reasoner.within limits).toDesirabilitySet K = (Query.ofExcept K.possibilitySpace >>= fun space =>
      (Reasoner.within limits).toDesirabilitySetOn K space) := rfl
  have states : K.domain ∪ K.domain = K.domain := SortedSet.ext fun x => by rw [SortedSet.mem_union, or_self]
  have there := Query.hitsLimit_of_bind conversion
  rw [query] at there
  obtain ⟨D, run, closure⟩ := exists_toDesirabilitySetOn (by rw [states]; exact exists_mem_domain some_member)
    (Query.hitsLimit_of_bind_ok there space)
  rw [states] at closure
  have run : ((Reasoner.within limits).toDesirabilitySet K).run = .ok D := (Query.run_bind_ok space).trans run
  obtain ⟨K', back, polar⟩ :=
    DesirabilitySet.exists_toCredalSet (closure.assessed (exists_mem_domain some_member))
    (Query.hitsLimit_of_bind_ok conversion run)
  obtain ⟨K'', removed, kept, mem⟩ := exists_discardRedundant some_member removal
  have extreme (p : Pmf σ) :
      p ∈ K'.members ↔ p.probability ∈ (convexHull ℚ K.probabilities).extremePoints ℚ := by
    rw [← probabilities_eq_extremePoints closure polar, mem_probabilities_iff]
  have same : K'' = K' := by
    cases K'
    cases K''
    congr 1
    refine SortedSet.ext fun p => (mem p).trans ((and_iff_right_of_imp fun h => ?_).trans (extreme p).symm)
    exact mem_probabilities_iff.1 (extremePoints_convexHull_subset h)
  exact ⟨K', removed, (Query.run_bind_ok run).trans back, same ▸ kept, extreme⟩

/-- Two certain outcomes, and the mixture of both in equal parts. -/
def mixed : CredalSet Int :=
  .ofList [.dirac 0, .dirac 1,
    ⟨⟨.ofList [(0, 1 / 2), (1, 1 / 2)], by decide +kernel, by decide +kernel⟩, by decide +kernel⟩]

theorem roundTrip_eq_extremePoints_mixed : mixed.members.isEmpty = false ∧
    (Reasoner.exact.toDesirabilitySet mixed >>= fun D => Reasoner.exact.toCredalSet D).hitsLimit = false ∧
    (Reasoner.exact.discardRedundant mixed).hitsLimit = false ∧
    ∃ (K' : CredalSet Int) (removed : ℕ),
      (Reasoner.exact.toDesirabilitySet mixed >>= fun D => Reasoner.exact.toCredalSet D).run = .ok K' ∧
      (Reasoner.exact.discardRedundant mixed).run = .ok (K', removed) ∧
      ∀ p, p ∈ K'.members ↔ p.probability ∈ (convexHull ℚ mixed.probabilities).extremePoints ℚ := by
  have some_member : mixed.members.isEmpty = false := by decide +kernel
  have conversion :
      (Reasoner.exact.toDesirabilitySet mixed >>= fun D => Reasoner.exact.toCredalSet D).hitsLimit =
      false := by decide +kernel
  have removal : (Reasoner.exact.discardRedundant mixed).hitsLimit = false := by decide +kernel
  exact ⟨some_member, conversion, removal, roundTrip_eq_extremePoints some_member conversion removal⟩

end CredalSet

end Prevision
