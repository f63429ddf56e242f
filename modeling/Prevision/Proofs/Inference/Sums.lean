import Prevision.Proofs.Duality.Representation
import Prevision.Proofs.Inference.Selection

/-!
# Sums of elements of cones

What the selections of a list of cones pay are the sums of elements of its cones
(`isSum_iff`), as two selections add up to one (`Selection.payoff_add`). So the
exact and the losing selections are sums of some kind (`exists_exact_iff`,
`exists_loses_iff`).

* `IsSum.dominates`: cones of positive elements only raise a sum, or are the whole of it;
* `IsSum.add_nonneg`: with the indicators of states among the cones, a
  nonnegative function may be added to a sum.
-/

namespace Prevision

variable {σ : Type} [State σ] {cones more : List (Cone σ)} {S : SortedSet σ} {f g h : σ → ℚ}

/-- The function is a sum of elements of cones in the list. -/
inductive IsSum (cones : List (Cone σ)) : (σ → ℚ) → Prop
  | element {C : Cone σ} {weight : Ray σ → ℚ} :
      C ∈ cones → C.isEmpty = false → (∀ r ∈ C.rays, 0 < weight r) →
      IsSum cones (C.payoff weight)
  | add {f g : σ → ℚ} : IsSum cones f → IsSum cones g → IsSum cones (f + g)

/-! ## Elements of cones -/

theorem Cone.payoff_eq_sum (C : Cone σ) (weight : Ray σ → ℚ) :
    C.payoff weight = ∑ r ∈ C.rays.toFinset, weight r • r.payoff := by
  funext x
  rw [Finset.sum_apply]
  rfl

theorem Cone.payoff_smul (C : Cone σ) (c : ℚ) (weight : Ray σ → ℚ) :
    C.payoff (fun r => c * weight r) = c • C.payoff weight := by
  rw [payoff_eq_sum, payoff_eq_sum, Finset.smul_sum]
  exact Finset.sum_congr rfl fun r _ => mul_smul c (weight r) _

theorem Cone.payoff_pos {C : Cone σ} {weight : Ray σ → ℚ} (rays : C.isEmpty = false)
    (positive : ∀ r ∈ C.rays, 0 < weight r) (pos : ∀ r ∈ C.rays, 0 < r.payoff) : 0 < C.payoff weight := by
  rw [payoff_eq_sum]
  exact Finset.sum_pos (fun r hr => smul_pos (positive r hr) (pos r hr))
    (SortedSet.isEmpty_eq_false_iff.1 rays)

/-- The element of a cone with a single ray. -/
theorem Cone.payoff_of_size_one {C : Cone σ} {r : Ray σ} (single : C.rays.size = 1) (hr : r ∈ C.rays)
    (weight : Ray σ → ℚ) : C.payoff weight = weight r • r.payoff := by
  obtain ⟨s, shape⟩ := List.length_eq_one_iff.1 single
  have same : r = s := List.mem_singleton.1 (shape ▸ hr)
  funext y
  rw [payoff, shape, same]
  exact add_zero _

theorem IsSum.smul (sum : IsSum cones f) {c : ℚ} (pos : 0 < c) : IsSum cones (c • f) := by
  induction sum with
  | element mem rays positive =>
    rw [← Cone.payoff_smul]
    exact .element mem rays fun r hr => mul_pos pos (positive r hr)
  | add _ _ ihf ihg =>
    rw [smul_add]
    exact ihf.add ihg

/-! ## Selections add up -/

theorem Cone.payoff_add (C : Cone σ) (v w : Ray σ → ℚ) (x : σ) :
    C.payoff (fun r => v r + w r) x = C.payoff v x + C.payoff w x := by
  rw [payoff, payoff, payoff, ← List.sum_map_add]
  exact congrArg List.sum (List.map_congr_left fun r _ => add_mul _ _ _)

namespace Selection

/-- The entries of both, with the weights of both. -/
def add (s t : Selection cones) : Selection cones where
  entries := s.entries ∪ t.entries
  weight i r := s.weightAt i r + t.weightAt i r
  lt_length i hi := (Finset.mem_union.1 hi).elim (s.lt_length i) (t.lt_length i)
  nonempty i hi := (Finset.mem_union.1 hi).elim (s.nonempty i) (t.nonempty i)
  positive i hi r hr := by
    rcases Finset.mem_union.1 hi with hs | ht
    · exact add_pos_of_pos_of_nonneg (weightAt_pos hs hr) (t.weightAt_nonneg i hr)
    · exact add_pos_of_nonneg_of_pos (s.weightAt_nonneg i hr) (weightAt_pos ht hr)

theorem payoff_add (s t : Selection cones) : (s.add t).payoff = s.payoff + t.payoff := by
  funext x
  show ∑ i ∈ s.entries ∪ t.entries, (coneAt cones i).payoff (fun r => s.weightAt i r + t.weightAt i r) x = _
  rw [Finset.sum_congr rfl fun i _ => Cone.payoff_add _ _ _ x, Finset.sum_add_distrib,
    s.sum_weightAt Finset.subset_union_left, t.sum_weightAt Finset.subset_union_right]
  rfl

end Selection

/-- The sums are what selections with some entry pay. -/
theorem isSum_iff : IsSum cones f ↔ ∃ s : Selection cones, s.entries.Nonempty ∧ s.payoff = f := by
  constructor
  · intro sum
    induction sum with
    | @element C weight mem rays positive =>
      obtain ⟨i, lt, rfl⟩ := List.getElem_of_mem mem
      have at_i : coneAt cones i = cones[i] := List.getD_eq_getElem _ _ lt
      refine ⟨⟨{i}, fun _ => weight, fun j hj => ?_, fun j hj => ?_, fun j hj => ?_⟩,
        ⟨i, Finset.mem_singleton_self i⟩, funext fun x => ?_⟩
      · rwa [Finset.mem_singleton.1 hj]
      · rwa [Finset.mem_singleton.1 hj, at_i]
      · rwa [Finset.mem_singleton.1 hj, at_i]
      · show ∑ j ∈ {i}, (coneAt cones j).payoff weight x = _
        rw [Finset.sum_singleton, at_i]
    | add _ _ ihf ihg =>
      obtain ⟨s, ⟨i, hi⟩, rfl⟩ := ihf
      obtain ⟨t, -, rfl⟩ := ihg
      exact ⟨s.add t, ⟨i, Finset.mem_union_left _ hi⟩, s.payoff_add t⟩
  · rintro ⟨s, some_entry, rfl⟩
    have parts : s.payoff = ∑ i ∈ s.entries, (coneAt cones i).payoff (s.weight i) := by
      funext x
      rw [Finset.sum_apply]
      rfl
    rw [parts]
    refine Finset.sum_induction_nonempty _ (IsSum cones) (fun _ _ => .add) some_entry fun i hi => ?_
    have mem : coneAt cones i ∈ cones := by
      rw [coneAt, List.getD_eq_getElem _ _ (s.lt_length i hi)]
      exact List.getElem_mem _
    exact .element mem (s.nonempty i hi) (s.positive i hi)

theorem exists_exact_iff {target : Option (Gamble σ)} :
    (∃ s : Selection cones, s.Exact target) ↔
      ∃ multiple : ℚ, 0 < multiple ∧ IsSum cones (targetPayoff target multiple) := by
  constructor
  · rintro ⟨s, some_entry, multiple, pos, balanced⟩
    exact ⟨multiple, pos, isSum_iff.2 ⟨s, some_entry, funext balanced⟩⟩
  · rintro ⟨multiple, pos, sum⟩
    obtain ⟨s, some_entry, balanced⟩ := isSum_iff.1 sum
    exact ⟨s, some_entry, multiple, pos, congrFun balanced⟩

theorem exists_loses_iff : (∃ s : Selection cones, s.Loses) ↔
    ∃ f, IsSum cones f ∧ (∀ x, f x ≤ 0) ∧ ∃ x, f x < 0 := by
  constructor
  · rintro ⟨s, some_entry, nonpos, negative⟩
    exact ⟨s.payoff, isSum_iff.2 ⟨s, some_entry, rfl⟩, nonpos, negative⟩
  · rintro ⟨f, sum, nonpos, negative⟩
    obtain ⟨s, some_entry, rfl⟩ := isSum_iff.1 sum
    exact ⟨s, some_entry, nonpos, negative⟩

/-- Some selection loses exactly if some sum is negative. -/
theorem exists_loses_iff_neg : (∃ s : Selection cones, s.Loses) ↔ ∃ f, IsSum cones f ∧ f < 0 := by
  simp only [exists_loses_iff, Pi.lt_def]
  rfl

/-! ## Where sums stand -/

theorem IsSum.mono (sum : IsSum cones f) (within : ∀ C ∈ cones, C ∈ more) : IsSum more f := by
  induction sum with
  | element mem rays positive => exact .element (within _ mem) rays positive
  | add _ _ ihf ihg => exact ihf.add ihg

theorem IsSum.supports (sum : IsSum cones f) (within : ∀ C ∈ cones, ∀ x ∈ C.domain, x ∈ S) :
    S.Supports f := by
  induction sum with
  | @element C weight mem _ _ =>
    exact fun x out => Cone.payoff_eq_zero (fun hx => out (within C mem x hx)) weight
  | add _ _ ihf ihg =>
    intro x out
    rw [Pi.add_apply, ihf x out, ihg x out, add_zero]

theorem DesirabilitySet.supports_of_isSum {D : DesirabilitySet σ} (sum : IsSum D.cones.toList f) :
    D.domain.Supports f := sum.supports fun C hC _ hx => SortedSet.mem_flatMap.2 ⟨C, hC, hx⟩

/-- An element of a cone is a combination of its rays. -/
theorem DesirabilitySet.generated_of_isSum {D : DesirabilitySet σ} (sum : IsSum D.cones.toList f) :
    Generated D.payoffs ⊥ f := by
  induction sum with
  | @element C weight mem _ positive =>
    rw [C.payoff_eq_sum]
    refine Finset.sum_induction _ (Generated D.payoffs ⊥) (fun _ _ => .add) .zero fun r hr => ?_
    have ray : r.payoff ∈ D.payoffs := ⟨r, mem_generators.2 ⟨C, mem, hr⟩, rfl⟩
    exact .ray ray (positive r hr).le
  | add _ _ ihf ihg => exact ihf.add ihg

/-- The function is positive, or at least a sum of elements of the cones. -/
def Dominates (cones : List (Cone σ)) (h : σ → ℚ) : Prop := 0 < h ∨ ∃ f, IsSum cones f ∧ f ≤ h

theorem Dominates.add (hf : Dominates cones f) (hg : Dominates cones g) : Dominates cones (f + g) := by
  rcases hf with hf | ⟨u, hu, le⟩
  · rcases hg with hg | ⟨v, hv, le'⟩
    · exact .inl (add_pos hf hg)
    · exact .inr ⟨v, hv, le'.trans (le_add_of_nonneg_left hf.le)⟩
  · rcases hg with hg | ⟨v, hv, le'⟩
    · exact .inr ⟨u, hu, le.trans (le_add_of_nonneg_right hg.le)⟩
    · exact .inr ⟨u + v, hu.add hv, add_le_add le le'⟩

theorem Dominates.smul (hf : Dominates cones f) {c : ℚ} (pos : 0 < c) : Dominates cones (c • f) := by
  rcases hf with hf | ⟨u, hu, le⟩
  · exact .inl (smul_pos pos hf)
  · exact .inr ⟨c • u, hu.smul pos, smul_le_smul_of_nonneg_left le pos.le⟩

/-- Cones whose elements are positive only raise a sum of the others, or are the whole of it. -/
theorem IsSum.dominates (sum : IsSum (cones ++ more) h) (pos : ∀ C ∈ more, ∀ r ∈ C.rays, 0 < r.payoff) :
    Dominates cones h := by
  induction sum with
  | @element C weight mem rays positive =>
    rcases List.mem_append.1 mem with own | other
    · exact .inr ⟨_, .element own rays positive, le_rfl⟩
    · exact .inl (Cone.payoff_pos rays positive (pos C other))
  | add _ _ ihf ihg => exact ihf.add ihg

/-! ## Indicators of states -/

theorem Cone.payoff_singleton (r : Ray σ) (weight : Ray σ → ℚ) :
    (singleton r).payoff weight = weight r • r.payoff :=
  funext fun _ => add_zero _

/-- A function on a set of states is the sum of its multiples of the indicators. -/
theorem SortedSet.Supports.eq_sum_units (supports : S.Supports h) :
    h = ∑ x ∈ S.toFinset, h x • (Ray.unit x).payoff := by
  funext y
  rw [Finset.sum_apply]
  by_cases hy : y ∈ S
  · rw [Finset.sum_eq_single_of_mem y hy fun x _ ne => by
      rw [Pi.smul_apply, Ray.payoff_unit_of_ne ne.symm, smul_zero], Pi.smul_apply,
        Ray.payoff_unit_self, smul_eq_mul,
      mul_one]
  · rw [supports y hy]
    refine (Finset.sum_eq_zero fun x hx => ?_).symm
    have ne : y ≠ x := fun same => hy (same.symm ▸ hx)
    rw [Pi.smul_apply, Ray.payoff_unit_of_ne ne, smul_zero]

theorem IsSum.unit {x : σ} {c : ℚ} (mem : Cone.singleton (.unit x) ∈ cones) (pos : 0 < c) :
    IsSum cones (c • (Ray.unit x).payoff) := by
  rw [← Cone.payoff_singleton (Ray.unit x) fun _ => c]
  exact .element mem rfl fun _ _ => pos

/-- With the indicators of some states among the cones, a nonnegative function on these may be added. -/
theorem IsSum.add_nonneg (sum : IsSum cones f) (units : ∀ x ∈ S, Cone.singleton (.unit x) ∈ cones)
    (supports : S.Supports h) (nonneg : ∀ x, 0 ≤ h x) : IsSum cones (f + h) := by
  rw [supports.eq_sum_units]
  refine Finset.sum_induction (fun x => h x • (Ray.unit x).payoff)
    (fun b => ∀ g, IsSum cones g → IsSum cones (g + b))
    (fun a b ha hb g hg => ?_) (fun g hg => ?_) (fun x hx g hg => ?_) f sum
  · rw [← add_assoc]
    exact hb _ (ha g hg)
  · rwa [add_zero]
  · rcases (nonneg x).eq_or_lt with zero | pos
    · rwa [← zero, zero_smul, add_zero]
    · exact hg.add (.unit (units x hx) pos)

/-- With the indicators of some states among the cones, a positive function on these is a sum. -/
theorem IsSum.of_pos (units : ∀ x ∈ S, Cone.singleton (.unit x) ∈ cones) (supports : S.Supports h)
    (pos : 0 < h) :
    IsSum cones h := by
  obtain ⟨nonneg, x, hx⟩ := Pi.lt_def.1 pos
  have inside : x ∈ S := not_not.1 fun out => hx.ne' (supports x out)
  have part : h x • (Ray.unit x).payoff ≤ h := fun y => by
    rcases eq_or_ne y x with rfl | ne
    · rw [Pi.smul_apply, Ray.payoff_unit_self, smul_eq_mul, mul_one]
    · rw [Pi.smul_apply, Ray.payoff_unit_of_ne ne, smul_zero]
      exact nonneg y
  rw [← add_sub_cancel (h x • (Ray.unit x).payoff) h]
  refine (IsSum.unit (units x inside) hx).add_nonneg units (fun y out => ?_) fun y => sub_nonneg.2 (part y)
  rw [Pi.sub_apply, supports y out, Pi.smul_apply, Ray.supports_unit inside y out, smul_zero, sub_zero]

end Prevision
