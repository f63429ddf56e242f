import Prevision.Proofs.Inference.Desirability
import Prevision.Proofs.Inference.Sums

/-!
# The natural extension of an assessment

An extension of an assessment holds the elements of its cones and the indicators
of all states, and with its members their sums and positive multiples. The least
one is what these rules derive (`isLeast_naturalExtension`).

A question about a gamble names finitely many states, and its answer only uses
the indicators of these. They are enough: what is derived is positive or at
least a sum of elements of the cones (`NaturalExtension.dominates`), and where
it is more than that sum only these states count (`isSum_conesFor_iff`). So a
gamble is desirable exactly if it is in the natural extension
(`exists_isDesirable_iff_naturalExtension`).
-/

namespace Prevision

variable {σ : Type} [State σ]

theorem SortedSet.Supports.finite {S : SortedSet σ} {h : σ → ℚ} (supports : S.Supports h) :
    (Function.support h).Finite :=
  S.toFinset.finite_toSet.subset fun x hx => not_not.1 fun out => hx (supports x out)

namespace DesirabilitySet

variable {D : DesirabilitySet σ} {f g : Gamble σ} {h : σ → ℚ}

/-- A set of functions that extends the assessment. -/
structure IsExtension (D : DesirabilitySet σ) (T : Set (σ → ℚ)) : Prop where
  finite : ∀ h ∈ T, (Function.support h).Finite
  element : ∀ C ∈ D.cones, ∀ weight : Ray σ → ℚ, (∀ r ∈ C.rays, 0 < weight r) → C.payoff weight ∈ T
  unit : ∀ x, (Ray.unit x).payoff ∈ T
  add : ∀ h ∈ T, ∀ k ∈ T, h + k ∈ T
  smul : ∀ h ∈ T, ∀ c : ℚ, 0 < c → c • h ∈ T

/-- What an assessment and the indicators of states give by sums and positive multiples. -/
inductive NaturalExtension (D : DesirabilitySet σ) : (σ → ℚ) → Prop
  | element {C : Cone σ} {weight : Ray σ → ℚ} : C ∈ D.cones → (∀ r ∈ C.rays, 0 < weight r) →
      NaturalExtension D (C.payoff weight)
  | unit (x : σ) : NaturalExtension D (Ray.unit x).payoff
  | add {h k : σ → ℚ} : NaturalExtension D h → NaturalExtension D k → NaturalExtension D (h + k)
  | smul {h : σ → ℚ} {c : ℚ} : NaturalExtension D h → 0 < c → NaturalExtension D (c • h)

theorem NaturalExtension.finite_support (derived : D.NaturalExtension h) : (Function.support h).Finite := by
  induction derived with
  | @element C weight _ _ =>
    have supports : C.domain.Supports (C.payoff weight) := fun _ out => Cone.payoff_eq_zero out weight
    exact supports.finite
  | unit x =>
    have supports : (SortedSet.singleton x).Supports (Ray.unit x).payoff :=
      Ray.supports_unit (SortedSet.mem_singleton.2 rfl)
    exact supports.finite
  | add _ _ ihh ihk => exact (ihh.union ihk).subset (Function.support_add _ _)
  | smul _ _ ih => exact ih.subset (Function.support_const_smul_subset _ _)

/-- The natural extension is the least of all extensions. -/
theorem isLeast_naturalExtension (D : DesirabilitySet σ) :
    IsLeast {T | D.IsExtension T} {h | D.NaturalExtension h} := by
  refine ⟨⟨fun _ => NaturalExtension.finite_support, fun _ hC _ => .element hC, .unit, fun _ hh _ => .add hh,
    fun _ hh _ => .smul hh⟩, fun T extends_D h derived => ?_⟩
  induction derived with
  | element hC positive => exact extends_D.element _ hC _ positive
  | unit x => exact extends_D.unit x
  | add _ _ ihh ihk => exact extends_D.add _ ihh _ ihk
  | smul _ pos ih => exact extends_D.smul _ ih _ pos

/-! ## The states of a question -/

theorem payoff_unit_pos (x : σ) : 0 < (Ray.unit x).payoff :=
  Pi.lt_def.2 ⟨Ray.payoff_unit_nonneg x, x, (Ray.payoff_unit_self x).symm ▸ one_pos⟩

/-- What is derived is positive, or at least a sum of elements of the cones. -/
theorem NaturalExtension.dominates (derived : D.NaturalExtension h) : Dominates D.cones.toList h := by
  induction derived with
  | element hC positive => exact .inr ⟨_, .element hC (D.nonempty _ hC) positive, le_rfl⟩
  | unit x => exact .inl (payoff_unit_pos x)
  | add _ _ ihh ihk => exact ihh.add ihk
  | smul _ pos ih => exact ih.smul pos

theorem NaturalExtension.of_isSum (sum : IsSum (D.conesFor f) h) : D.NaturalExtension h := by
  induction sum with
  | @element C weight mem _ positive =>
    rcases List.mem_append.1 mem with own | other
    · exact .element own positive
    · obtain ⟨x, -, rfl⟩ := mem_cones_vacuous.1 other
      rw [Cone.payoff_singleton]
      exact .smul (.unit x) (positive _ (SortedSet.mem_singleton.2 rfl))
  | add _ _ ihh ihk => exact ihh.add ihk

/-- The indicators in question make good what a function on their states has beyond the assessments. -/
theorem isSum_conesFor_iff (supports : (D.domain ∪ f.domain).Supports h) :
    IsSum (D.conesFor f) h ↔ Dominates D.cones.toList h := by
  have units : ∀ x ∈ D.domain ∪ f.domain, Cone.singleton (.unit x) ∈ D.conesFor f := fun x hx =>
    List.mem_append_right _ (mem_cones_vacuous.2 ⟨x, hx, rfl⟩)
  constructor
  · refine fun sum => sum.dominates fun C hC r hr => ?_
    obtain ⟨x, -, rfl⟩ := mem_cones_vacuous.1 hC
    rw [SortedSet.mem_singleton.1 hr]
    exact payoff_unit_pos x
  · rintro (pos | ⟨u, sum, le⟩)
    · exact .of_pos units supports pos
    · rw [← add_sub_cancel u h]
      refine (sum.mono fun C hC => List.mem_append_left _ hC).add_nonneg units (fun x out => ?_) fun x =>
        sub_nonneg.2 (le x)
      have outside : x ∉ D.domain := fun hx => out (SortedSet.mem_union.2 (.inl hx))
      rw [Pi.sub_apply, supports x out, supports_of_isSum sum x outside, sub_zero]

theorem naturalExtension_iff_dominates (supports : (D.domain ∪ f.domain).Supports h) :
    D.NaturalExtension h ↔ Dominates D.cones.toList h :=
  ⟨NaturalExtension.dominates, fun least => .of_isSum ((isSum_conesFor_iff supports).2 least)⟩

/-! ## The answer -/

theorem supports_payoff (D : DesirabilitySet σ) (f : Gamble σ) : (D.domain ∪ f.domain).Supports f.payoff :=
  fun _ out => Table.payoff_eq_zero fun hx => out (SortedSet.mem_union.2 (.inr hx))

/-- A target pays multiples of the gamble, also if the gamble is zero and there is no target. -/
theorem targetPayoff_targetOf (f : Gamble σ) (multiple : ℚ) :
    targetPayoff (targetOf f) multiple = multiple • f.payoff := by
  funext x
  rw [targetOf]
  split
  · rename_i zero
    have none : f.payoff x = 0 := congrFun (Gamble.isZero_iff.1 zero) x
    rw [targetPayoff_none, Pi.smul_apply, none, smul_zero]
  · rw [targetPayoff_some, Pi.smul_apply, smul_eq_mul]

theorem exists_exact_targetOf_iff :
    (∃ s : Selection (D.conesFor f), s.Exact (targetOf f)) ↔ Dominates D.cones.toList f.payoff := by
  rw [exists_exact_iff]
  simp only [targetPayoff_targetOf]
  constructor
  · rintro ⟨multiple, pos, sum⟩
    have least := (sum.smul (inv_pos.2 pos))
    rw [inv_smul_smul₀ pos.ne'] at least
    exact (isSum_conesFor_iff (D.supports_payoff f)).1 least
  · intro least
    refine ⟨1, one_pos, ?_⟩
    rw [one_smul]
    exact (isSum_conesFor_iff (D.supports_payoff f)).2 least

/-- With enough pivots, a gamble is desirable exactly if it is at least a sum of elements of the
cones, or positive. -/
theorem exists_isDesirable_iff_dominates (D : DesirabilitySet σ) (f : Gamble σ) :
    ∃ limit, ∀ maxPivots ≥ limit, ∃ b,
    (D.isDesirable (m := Id) (Simplex.solve maxPivots) f).run = .ok b ∧
      (b = true ↔ Dominates D.cones.toList f.payoff) := by
  obtain ⟨limit, b, answers, decides⟩ := exists_isDesirable D f
  exact ⟨limit, fun maxPivots le => ⟨b, answers maxPivots le, decides.trans exists_exact_targetOf_iff⟩⟩

theorem exists_isDesirable_eq {b : Bool} (right : b = true ↔ Dominates D.cones.toList f.payoff) :
    ∃ limit, ∀ maxPivots ≥ limit, (D.isDesirable (m := Id) (Simplex.solve maxPivots) f).run = .ok b := by
  obtain ⟨limit, answers⟩ := exists_isDesirable_iff_dominates D f
  refine ⟨limit, fun maxPivots le => ?_⟩
  obtain ⟨b', answer, decides⟩ := answers maxPivots le
  rwa [Bool.eq_iff_iff.2 (right.trans decides.symm)]

/-- With enough pivots, a gamble is desirable exactly if it is in the natural extension, so
gambles that pay the same get the same answer. -/
theorem exists_isDesirable_iff_naturalExtension (D : DesirabilitySet σ) :
    IsLeast {T | D.IsExtension T} {h | D.NaturalExtension h} ∧
    ∀ f g : Gamble σ, f.payoff = g.payoff → ∃ limit, ∀ maxPivots ≥ limit, ∃ b,
      (D.isDesirable (m := Id) (Simplex.solve maxPivots) f).run = .ok b ∧
      (D.isDesirable (m := Id) (Simplex.solve maxPivots) g).run = .ok b ∧
      (b = true ↔ D.NaturalExtension f.payoff) := by
  refine ⟨D.isLeast_naturalExtension, fun f g same => ?_⟩
  obtain ⟨limit, answers⟩ := exists_isDesirable_iff_dominates D f
  obtain ⟨limit', answers'⟩ := exists_isDesirable_iff_dominates D g
  refine ⟨max limit limit', fun maxPivots le => ?_⟩
  obtain ⟨b, answer, decides⟩ := answers maxPivots ((le_max_left _ _).trans le)
  obtain ⟨b', answer', decides'⟩ := answers' maxPivots ((le_max_right _ _).trans le)
  have agree : b = b' := Bool.eq_iff_iff.2 (decides.trans (same ▸ decides'.symm))
  refine ⟨b, answer, agree ▸ answer',
    decides.trans (naturalExtension_iff_dominates (D.supports_payoff f)).symm⟩

end DesirabilitySet

end Prevision
