import Prevision.Proofs.Inference.Assessments
import Prevision.Proofs.Model.Expectations

/-!
# One assessment on a vacuous model

With the indicators of the states of an event and assessments of one gamble on
it, all that is desirable is told by the multiples of the margin that are
assessed, its slopes (`HasMargin`): the nonnegative ones for a lower prevision
and all of them for a prevision. What the rays generate is at least the margin
times a slope (`HasMargin.exists_slope`), and a sum of whole cones is even
greater throughout the event, unless it is positive
(`HasMargin.exists_slope_of_isSum`). So a loss is a slope for which the margin is
negative throughout (`HasMargin.incursSureLoss_iff`, `HasMargin.loses_iff`), and
the prices are found by slopes (`HasMargin.isPrice_iff`).

For a lower prevision this gives the greater of the prevision and the least
payoff, and for a prevision the prevision itself, as long as they are not beyond
the payoffs (`exists_oneAssessment`).
-/

namespace Prevision

variable {σ : Type} [State σ]

namespace DesirabilitySet

variable {D : DesirabilitySet σ} {E : SortedSet σ} {C : Cone σ} {f g : Gamble σ} {h u : σ → ℚ}
    {S S' : Set ℚ}
  {c v : ℚ} {r : Ray σ}

/-- Slopes may be added and multiplied by what is not negative. -/
structure IsSlopes (S : Set ℚ) : Prop where
  zero_mem : 0 ∈ S
  add_mem : ∀ s ∈ S, ∀ t ∈ S, s + t ∈ S
  mul_mem : ∀ b, 0 ≤ b → ∀ t ∈ S, b * t ∈ S

theorem isSlopes_singleton : IsSlopes {0} where
  zero_mem := rfl
  add_mem s hs t ht := by
    rw [Set.mem_singleton_iff.1 hs, Set.mem_singleton_iff.1 ht, add_zero, Set.mem_singleton_iff]
  mul_mem b _ t ht := by rw [Set.mem_singleton_iff.1 ht, mul_zero, Set.mem_singleton_iff]

theorem isSlopes_nonneg : IsSlopes (Set.Ici 0) where
  zero_mem := Set.mem_Ici.2 le_rfl
  add_mem _ hs _ ht := Set.mem_Ici.2 (add_nonneg hs ht)
  mul_mem _ hb _ ht := Set.mem_Ici.2 (mul_nonneg hb ht)

theorem isSlopes_univ : IsSlopes Set.univ where
  zero_mem := trivial
  add_mem _ _ _ _ := trivial
  mul_mem _ _ _ _ := trivial

/-- Besides the indicators of the states of an event there are assessments of multiples of one
margin, and all slopes are generated. -/
structure HasMargin (D : DesirabilitySet σ) (E : SortedSet σ) (h : σ → ℚ) (S : Set ℚ) : Prop where
  slopes : IsSlopes S
  supports : E.Supports h
  unit : ∀ x ∈ E, .singleton (.unit x) ∈ D.cones
  cone : ∀ C ∈ D.cones, (∃ x ∈ E, C = .singleton (.unit x)) ∨ ∃ a ∈ S, C.Assesses E (a • h)
  generated : ∀ t ∈ S, Generated D.payoffs ⊥ (t • h)

namespace HasMargin

theorem exists_slope_of_ray (margin : D.HasMargin E h S) (hr : r ∈ D.generators) :
    ∃ t ∈ S, t • h ≤ r.payoff := by
  have of_nonneg (nonneg : 0 ≤ r.payoff) : ∃ t ∈ S, t • h ≤ r.payoff :=
    ⟨0, margin.slopes.zero_mem, by rwa [zero_smul]⟩
  obtain ⟨C, hC, hr⟩ := mem_generators.1 hr
  rcases margin.cone C hC with ⟨x, -, rfl⟩ | ⟨a, ha, assesses⟩
  · rw [SortedSet.mem_singleton.1 hr] at of_nonneg ⊢
    exact of_nonneg (Ray.payoff_unit_nonneg x)
  · rcases assesses.ray r hr with indicator | parallel
    · exact of_nonneg (indicator ▸ Gamble.payoff_indicator_nonneg E)
    · obtain ⟨b, pos, same⟩ := parallel.symm
      exact ⟨b * a, margin.slopes.mul_mem b pos.le a ha, by rw [same, smul_smul]⟩

/-- What the rays generate is at least the margin times some slope. The induction is on the rays
that are used. -/
theorem exists_slope (margin : D.HasMargin E h S) (generated : Generated D.payoffs ⊥ u) :
    ∃ t ∈ S, t • h ≤ u := by
  induction generated with
  | line hl =>
    rw [(Submodule.mem_bot ℚ).1 hl]
    exact ⟨0, margin.slopes.zero_mem, (zero_smul ℚ h).le⟩
  | @addRay y _ b _ hr hb ih =>
    obtain ⟨t, ht, le⟩ := ih
    obtain ⟨r, hr, rfl⟩ := hr
    obtain ⟨s, hs, le'⟩ := margin.exists_slope_of_ray hr
    refine ⟨t + b * s, margin.slopes.add_mem t ht _ (margin.slopes.mul_mem b hb s hs), ?_⟩
    rw [add_smul, mul_smul]
    exact add_le_add le (smul_le_smul_of_nonneg_left le' hb)

/-- An element of an assessment is the indicator times its weight and what the other rays generate. -/
theorem exists_slope_of_assesses (margin : D.HasMargin E h S) (hC : C ∈ D.cones) {k : σ → ℚ}
    (assesses : C.Assesses E k)
    {weight : Ray σ → ℚ} (positive : ∀ r ∈ C.rays, 0 < weight r) :
    ∃ t ∈ S, ∀ x ∈ E, t * h x < C.payoff weight x := by
  classical
  obtain ⟨i, hi, indicator⟩ := assesses.exists_indicator
  have others : Generated D.payoffs ⊥ (∑ r ∈ C.rays.toFinset.erase i, weight r • r.payoff) := by
    refine Finset.sum_induction _ (Generated D.payoffs ⊥) (fun _ _ => .add) .zero fun r hr => ?_
    have hr : r ∈ C.rays := Finset.mem_of_mem_erase hr
    have ray : r.payoff ∈ D.payoffs := ⟨r, mem_generators.2 ⟨C, hC, hr⟩, rfl⟩
    exact .ray ray (positive r hr).le
  obtain ⟨t, ht, le⟩ := margin.exists_slope others
  refine ⟨t, ht, fun x hx => ?_⟩
  have one : i.payoff x = 1 := by rw [indicator, Gamble.payoff_indicator, if_pos hx]
  rw [C.payoff_eq_sum, ← Finset.add_sum_erase _ _ (SortedSet.mem_toFinset.2 hi), Pi.add_apply,
    Pi.smul_apply, one]
  exact (le x).trans_lt (lt_add_of_pos_left _ (by rw [smul_eq_mul, mul_one]; exact positive i hi))

/-- A sum of whole cones is positive, or greater than the margin times some slope throughout the event. -/
theorem exists_slope_of_isSum (margin : D.HasMargin E h S) (sum : IsSum D.cones.toList u) :
    0 < u ∨ ∃ t ∈ S, ∀ x ∈ E, t * h x < u x := by
  induction sum with
  | @element C weight hC rays positive =>
    rcases margin.cone C hC with ⟨x, -, rfl⟩ | ⟨a, -, assesses⟩
    · refine .inl (Cone.payoff_pos rays positive fun r hr => ?_)
      rw [SortedSet.mem_singleton.1 hr]
      exact payoff_unit_pos x
    · exact .inr (margin.exists_slope_of_assesses hC assesses positive)
  | @add y z _ _ ihy ihz =>
    rcases ihy with pos | ⟨s, hs, lt⟩
    · rcases ihz with pos' | ⟨t, ht, lt'⟩
      · exact .inl (add_pos pos pos')
      · exact .inr ⟨t, ht, fun x hx => (lt' x hx).trans_le (le_add_of_nonneg_left (pos.le x))⟩
    · rcases ihz with pos' | ⟨t, ht, lt'⟩
      · exact .inr ⟨s, hs, fun x hx => (lt x hx).trans_le (le_add_of_nonneg_right (pos'.le x))⟩
      · refine .inr ⟨s + t, margin.slopes.add_mem s hs t ht, fun x hx => ?_⟩
        rw [add_mul]
        exact add_lt_add (lt x hx) (lt' x hx)

/-! ## Losses -/

theorem supports_of_ray (margin : D.HasMargin E h S) (hr : r ∈ D.generators) : E.Supports r.payoff := by
  obtain ⟨C, hC, hr⟩ := mem_generators.1 hr
  intro x out
  rcases margin.cone C hC with ⟨y, hy, rfl⟩ | ⟨a, -, assesses⟩
  · rw [SortedSet.mem_singleton.1 hr]
    exact Ray.supports_unit hy x out
  · rcases assesses.ray r hr with indicator | parallel
    · rw [indicator, Gamble.payoff_indicator, if_neg out]
    · obtain ⟨b, -, same⟩ := parallel.symm
      rw [same, Pi.smul_apply, Pi.smul_apply, margin.supports x out, smul_zero, smul_zero]

theorem mem_domain (margin : D.HasMargin E h S) {x : σ} : x ∈ D.domain ↔ x ∈ E := by
  rw [DesirabilitySet.mem_domain]
  constructor
  · rintro ⟨r, hr, hx⟩
    exact not_not.1 fun out => Ray.mem_domain.1 hx (margin.supports_of_ray hr x out)
  · intro hx
    refine ⟨.unit x, mem_generators.2 ⟨_, margin.unit x hx, SortedSet.mem_singleton.2 rfl⟩,
      Ray.mem_domain.2 ?_⟩
    rw [Ray.payoff_unit_self]
    exact one_ne_zero

theorem assessed (margin : D.HasMargin E h S) (event : E.isEmpty = false) : D.cones.isEmpty = false := by
  obtain ⟨x, hx⟩ := SortedSet.isEmpty_eq_false_iff.1 event
  exact SortedSet.isEmpty_eq_false_iff.2 ⟨_, margin.unit x hx⟩

theorem incursSureLoss_iff (margin : D.HasMargin E h S) :
    D.IncursSureLoss ↔ ∃ t ∈ S, ∀ x ∈ E, t * h x < 0 := by
  simp only [incursSureLoss_iff_generated, margin.mem_domain]
  constructor
  · rintro ⟨u, generated, negative⟩
    obtain ⟨t, ht, le⟩ := margin.exists_slope generated
    exact ⟨t, ht, fun x hx => (le x).trans_lt (negative x hx)⟩
  · rintro ⟨t, ht, negative⟩
    exact ⟨t • h, margin.generated t ht, negative⟩

theorem loses_iff (margin : D.HasMargin E h S) (event : E.isEmpty = false) :
    (∃ s : Selection D.cones.toList, s.Loses) ↔ ∃ t ∈ S, ∀ x ∈ E, t * h x < 0 := by
  constructor
  · intro loses
    obtain ⟨u, sum, negative⟩ := exists_loses_iff_neg.1 loses
    rcases margin.exists_slope_of_isSum sum with pos | ⟨t, ht, lt⟩
    · exact absurd (pos.trans negative) (lt_irrefl 0)
    · exact ⟨t, ht, fun x hx => (lt x hx).trans_le (negative.le x)⟩
  · intro loss
    exact exists_loses_of_incursSureLoss (margin.assessed event) (margin.incursSureLoss_iff.2 loss)

theorem incursLossOn_iff (margin : D.HasMargin E h S) :
    D.IncursLossOn E ↔ ∃ t ∈ S, ∀ x ∈ E, t * h x < 0 := by
  constructor
  · rintro ⟨u, generated, -, negative⟩
    obtain ⟨t, ht, le⟩ := margin.exists_slope generated
    exact ⟨t, ht, fun x hx => (le x).trans_lt (negative x hx)⟩
  · rintro ⟨t, ht, negative⟩
    refine ⟨t • h, margin.generated t ht, fun x => ?_, negative⟩
    by_cases hx : x ∈ E
    · exact (negative x hx).le
    · rw [Pi.smul_apply, margin.supports x hx, smul_zero]
      exact le_rfl

/-- Both checks have the same answer, which slopes decide. -/
theorem exists_losses (margin : D.HasMargin E h S) (event : E.isEmpty = false) {b : Bool}
    (right : b = true ↔ ¬∃ t ∈ S, ∀ x ∈ E, t * h x < 0) : ∃ limit, ∀ maxPivots ≥ limit,
      (D.avoidsSureLoss (m := Id) (Simplex.solve maxPivots)).run = .ok b ∧
      (D.avoidsPartialLoss (m := Id) (Simplex.solve maxPivots)).run = .ok b := by
  obtain ⟨limit, answers⟩ := exists_limit_and D.exists_limit_avoidsSureLoss D.exists_limit_avoidsPartialLoss
  refine ⟨limit, fun maxPivots le => ?_⟩
  obtain ⟨⟨c, answer, decides⟩, ⟨c', answer', decides'⟩⟩ := answers maxPivots le
  rw [margin.assessed event, or_iff_right Bool.false_ne_true, margin.incursSureLoss_iff, ← right,
    ← Bool.eq_iff_iff] at decides
  rw [margin.loses_iff event, ← right, ← Bool.eq_iff_iff] at decides'
  exact ⟨decides ▸ answer, decides' ▸ answer'⟩

/-! ## Prices -/

/-- A price of a gamble on the event is what some slope leaves of it. -/
theorem isPrice_iff (margin : D.HasMargin g.domain h S) :
    D.IsPrice g c ↔ ∃ t ∈ S, ∀ x ∈ g.domain, t * h x ≤ g.payoff x - c := by
  have rest {t : ℚ} : t • h ≤ (g.shift (-c)).payoff ↔ ∀ x ∈ g.domain, t * h x ≤ g.payoff x - c := by
    refine ⟨fun le x hx => ?_, fun le x => ?_⟩
    · rw [← Gamble.payoff_shift_neg hx]
      exact le x
    · by_cases hx : x ∈ g.domain
      · rw [Gamble.payoff_shift_neg hx]
        exact le x hx
      · rw [Gamble.payoff_shift, if_neg hx, Pi.smul_apply, margin.supports x hx, smul_zero]
  rw [isPrice_iff_le_shift]
  constructor
  · rintro ⟨u, generated, le⟩
    obtain ⟨t, ht, le'⟩ := margin.exists_slope generated
    exact ⟨t, ht, rest.1 (le'.trans le)⟩
  · rintro ⟨t, ht, le⟩
    exact ⟨_, margin.generated t ht, rest.2 le⟩

/-! ## Building up -/

theorem vacuous (supports : E.Supports h) : (vacuous E).HasMargin E h {0} where
  slopes := isSlopes_singleton
  supports := supports
  unit x hx := mem_cones_vacuous.2 ⟨x, hx, rfl⟩
  cone C hC := .inl (mem_cones_vacuous.1 hC)
  generated t ht := by
    rw [Set.mem_singleton_iff.1 ht, zero_smul]
    exact .zero

/-- Another assessment adds its slope. -/
theorem insert {a : ℚ} (margin : D.HasMargin E h S) (assesses : C.Assesses E (a • h))
    (slopes : IsSlopes S') (le : S ⊆ S')
    (ha : a ∈ S') (sums : ∀ t ∈ S', ∃ s ∈ S, ∃ b, 0 ≤ b ∧ t = s + b * a) :
    (D.insert C).HasMargin E h S' where
  slopes := slopes
  supports := margin.supports
  unit x hx := mem_cones_insert.2 (.inl (margin.unit x hx))
  cone A hA := by
    rcases mem_cones_insert.1 hA with own | ⟨rfl, -⟩
    · exact (margin.cone A own).imp_right fun ⟨b, hb, assesses⟩ => ⟨b, le hb, assesses⟩
    · exact .inr ⟨a, ha, assesses⟩
  generated t ht := by
    obtain ⟨s, hs, b, hb, rfl⟩ := sums t ht
    have mem : C ∈ (D.insert C).cones := mem_cones_insert.2 (.inr ⟨rfl, assesses.isEmpty_eq⟩)
    rw [add_smul, mul_smul]
    exact ((D.includes_insert C).generated (margin.generated s hs)).add
      ((generated_margin mem assesses).smul hb)

end HasMargin

/-! ## Slopes -/

theorem exists_slope_of_lower {t : ℚ} (nonneg : 0 ≤ t) :
    ∃ s ∈ ({0} : Set ℚ), ∃ b : ℚ, 0 ≤ b ∧ t = s + b * 1 :=
  ⟨0, rfl, t, nonneg, by rw [mul_one, zero_add]⟩

theorem exists_slope_of_both (t : ℚ) : ∃ s ∈ Set.Ici 0, ∃ b : ℚ, 0 ≤ b ∧ t = s + b * (-1) := by
  rcases le_total 0 t with nonneg | nonpos
  · exact ⟨t, Set.mem_Ici.2 nonneg, 0, le_rfl, by rw [zero_mul, add_zero]⟩
  · exact ⟨0, Set.mem_Ici.2 le_rfl, -t, neg_nonneg.2 nonpos, by ring⟩

/-- A lower prevision on a vacuous model has the nonnegative slopes. -/
theorem exists_hasMargin_lower (event : f.domain.isEmpty = false) (v : ℚ) :
    ∃ L, (vacuous f.domain).setLowerPrevision f v = .ok L ∧
      L.HasMargin f.domain (f.shift (-v)).payoff (Set.Ici 0) := by
  obtain ⟨C, assesses, done⟩ := exists_setLowerPrevision event (vacuous f.domain) v
  rw [← one_smul ℚ (f.shift (-v)).payoff] at assesses
  exact ⟨_, done, (HasMargin.vacuous (f.supports_shift (-v))).insert assesses isSlopes_nonneg
    (Set.singleton_subset_iff.2 (Set.mem_Ici.2 le_rfl)) (Set.mem_Ici.2 zero_le_one) fun t =>
      exists_slope_of_lower⟩

/-- A prevision on a vacuous model has all slopes. -/
theorem exists_hasMargin_both (event : f.domain.isEmpty = false) (v : ℚ) :
    ∃ P, (vacuous f.domain).setPrevision f v = .ok P ∧
      P.HasMargin f.domain (f.shift (-v)).payoff Set.univ := by
  obtain ⟨L, lower, margin⟩ := exists_hasMargin_lower event v
  have event' : (-f).domain.isEmpty = false := by rwa [Gamble.domain_neg]
  obtain ⟨C, assesses, upper⟩ := exists_setLowerPrevision event' L (-v)
  have opposite : ((-f).shift (- -v)).payoff = (-1 : ℚ) • (f.shift (-v)).payoff := funext fun x => by
    rw [Gamble.payoff_shift, Gamble.domain_neg, Gamble.payoff_neg, Pi.smul_apply, Gamble.payoff_shift,
      smul_eq_mul]
    split
    · ring
    · rw [mul_zero]
  rw [Gamble.domain_neg, opposite] at assesses
  refine ⟨_, ?_, margin.insert assesses isSlopes_univ (Set.subset_univ _) trivial fun t _ =>
    exists_slope_of_both t⟩
  rw [setPrevision, lower]
  exact upper

/-! ## Lower previsions -/

/-- The prices of a gamble on the domain, by how much the assessed one is above its prevision. -/
theorem HasMargin.isPrice_iff_sub (margin : D.HasMargin f.domain (f.shift (-v)).payoff S)
    (domain : g.domain = f.domain) :
    D.IsPrice g c ↔ ∃ t ∈ S, ∀ x ∈ f.domain, t * (f.payoff x - v) ≤ g.payoff x - c := by
  rw [← domain] at margin
  rw [margin.isPrice_iff, domain]
  refine exists_congr fun t => and_congr_right fun _ => forall₂_congr fun x hx => ?_
  rw [Gamble.payoff_shift_neg hx]

/-- The margin is negative throughout if the prevision is beyond the greatest payoff. -/
theorem exists_losing_slope_lower (event : f.domain.isEmpty = false) :
    (∃ t ∈ Set.Ici 0, ∀ x ∈ f.domain, t * (f.shift (-v)).payoff x < 0) ↔ f.greatest < v := by
  constructor
  · rintro ⟨t, nonneg, negative⟩
    obtain ⟨x, hx, top⟩ := Gamble.exists_payoff_eq_greatest event
    have at_top := negative x hx
    rw [Gamble.payoff_shift_neg hx, top] at at_top
    exact sub_neg.1 (neg_of_mul_neg_right at_top nonneg)
  · intro lt
    refine ⟨1, Set.mem_Ici.2 zero_le_one, fun x hx => ?_⟩
    rw [Gamble.payoff_shift_neg hx, one_mul]
    exact sub_neg.2 ((Gamble.le_greatest hx).trans_lt lt)

/-- The greatest price is the greater of the prevision and the least payoff. -/
theorem isGreatest_lower (margin : D.HasMargin f.domain (f.shift (-v)).payoff (Set.Ici 0))
    (event : f.domain.isEmpty = false) (le : v ≤ f.greatest) :
    IsGreatest {c | D.IsPrice f c} (max f.least v) := by
  constructor
  · -- The least payoff takes nothing of the margin, and the prevision all of it.
    refine max_rec' (D.IsPrice f) ?_ ?_
    · refine (margin.isPrice_iff_sub rfl).2 ⟨0, Set.mem_Ici.2 le_rfl, fun x hx => ?_⟩
      rw [zero_mul]
      exact sub_nonneg.2 (Gamble.least_le hx)
    · refine (margin.isPrice_iff_sub rfl).2 ⟨1, Set.mem_Ici.2 zero_le_one, fun x hx => ?_⟩
      rw [one_mul]
  · intro c hc
    obtain ⟨t, nonneg, below⟩ := (margin.isPrice_iff_sub rfl).1 hc
    have nonneg : 0 ≤ t := nonneg
    rcases le_total t 1 with le_one | one_le
    · obtain ⟨x, hx, bottom⟩ := Gamble.exists_payoff_eq_least event
      have at_bottom := below x hx
      rw [bottom] at at_bottom
      have part := mul_le_mul_of_nonneg_left (le_max_left f.least v) (sub_nonneg.2 le_one)
      have rest := mul_le_mul_of_nonneg_left (le_max_right f.least v) nonneg
      linarith
    · obtain ⟨x, hx, top⟩ := Gamble.exists_payoff_eq_greatest event
      have at_top := below x hx
      rw [top] at at_top
      have more := mul_nonneg (sub_nonneg.2 one_le) (sub_nonneg.2 le)
      refine le_trans ?_ (le_max_right f.least v)
      linarith

/-- The opposite gamble is worth the opposite of the greatest payoff. -/
theorem isGreatest_upper (margin : D.HasMargin f.domain (f.shift (-v)).payoff (Set.Ici 0))
    (event : f.domain.isEmpty = false) (le : v ≤ f.greatest) :
    IsGreatest {c | D.IsPrice (-f) c} (-f.greatest) := by
  constructor
  · refine (margin.isPrice_iff_sub f.domain_neg).2 ⟨0, Set.mem_Ici.2 le_rfl, fun x hx => ?_⟩
    rw [zero_mul, Gamble.payoff_neg, neg_sub_neg]
    exact sub_nonneg.2 (Gamble.le_greatest hx)
  · intro c hc
    obtain ⟨t, nonneg, below⟩ := (margin.isPrice_iff_sub f.domain_neg).1 hc
    obtain ⟨x, hx, top⟩ := Gamble.exists_payoff_eq_greatest event
    have at_top := below x hx
    rw [Gamble.payoff_neg, top] at at_top
    have more := mul_nonneg nonneg (sub_nonneg.2 le)
    linarith

/-! ## Previsions -/

/-- Some multiple of the margin is negative throughout if the prevision is beyond the payoffs, on
either side. -/
theorem exists_losing_slope_both (event : f.domain.isEmpty = false) (v : ℚ) :
    (∃ t ∈ Set.univ, ∀ x ∈ f.domain, t * (f.shift (-v)).payoff x < 0) ↔
      ¬(f.least ≤ v ∧ v ≤ f.greatest) := by
  constructor
  · rintro ⟨t, -, negative⟩ ⟨ge, le⟩
    rcases le_total 0 t with nonneg | nonpos
    · obtain ⟨x, hx, top⟩ := Gamble.exists_payoff_eq_greatest event
      have at_top := negative x hx
      rw [Gamble.payoff_shift_neg hx, top] at at_top
      exact absurd at_top (not_lt.2 (mul_nonneg nonneg (sub_nonneg.2 le)))
    · obtain ⟨x, hx, bottom⟩ := Gamble.exists_payoff_eq_least event
      have at_bottom := negative x hx
      rw [Gamble.payoff_shift_neg hx, bottom] at at_bottom
      exact absurd at_bottom (not_lt.2 (mul_nonneg_of_nonpos_of_nonpos nonpos (sub_nonpos.2 ge)))
  · intro beyond
    rcases not_and_or.1 beyond with low | high
    · refine ⟨-1, trivial, fun x hx => ?_⟩
      rw [Gamble.payoff_shift_neg hx, neg_one_mul, neg_sub]
      exact sub_neg.2 ((not_le.1 low).trans_le (Gamble.least_le hx))
    · refine ⟨1, trivial, fun x hx => ?_⟩
      rw [Gamble.payoff_shift_neg hx, one_mul]
      exact sub_neg.2 ((Gamble.le_greatest hx).trans_lt (not_le.1 high))

/-- The prevision is a price, and its opposite is one of the opposite gamble. -/
theorem isPrice_both (margin : D.HasMargin f.domain (f.shift (-v)).payoff Set.univ) :
    D.IsPrice f v ∧ D.IsPrice (-f) (-v) := by
  constructor
  · refine (margin.isPrice_iff_sub rfl).2 ⟨1, trivial, fun x _ => ?_⟩
    rw [one_mul]
  · refine (margin.isPrice_iff_sub f.domain_neg).2 ⟨-1, trivial, fun x _ => ?_⟩
    rw [neg_one_mul, Gamble.payoff_neg, neg_sub', sub_neg_eq_add]

/-! ## Answers -/

theorem exists_lower_answers (margin : D.HasMargin f.domain (f.shift (-v)).payoff (Set.Ici 0))
    (event : f.domain.isEmpty = false) : ∃ limit, ∀ maxPivots ≥ limit,
      (v ≤ f.greatest → (D.lowerExpectation (m := Id) (Simplex.solve maxPivots) f).run = .ok (max f.least v) ∧
        (D.upperExpectation (m := Id) (Simplex.solve maxPivots) f).run = .ok f.greatest) ∧
      (f.greatest < v →
        (D.lowerExpectation (m := Id) (Simplex.solve maxPivots) f).run = .error (.unsolved .unbounded) ∧
        (D.upperExpectation (m := Id) (Simplex.solve maxPivots) f).run = .error (.unsolved .unbounded)) := by
  rcases le_or_gt v f.greatest with le | lt
  · obtain ⟨limit, answers⟩ :=
      exists_expectations_eq (margin.assessed event) (isGreatest_lower margin event le)
      (isGreatest_upper margin event le)
    exact ⟨limit, fun maxPivots enough =>
      ⟨fun _ => answers maxPivots enough, fun lt => absurd le (not_le.2 lt)⟩⟩
  · have loss : D.IncursLossOn f.domain := margin.incursLossOn_iff.2 ((exists_losing_slope_lower event).2 lt)
    obtain ⟨limit, unbounded⟩ := loss.exists_unbounded (margin.assessed event)
    exact ⟨limit, fun maxPivots enough =>
      ⟨fun le => absurd le (not_le.2 lt), fun _ => unbounded maxPivots enough⟩⟩

theorem exists_both_answers (margin : D.HasMargin f.domain (f.shift (-v)).payoff Set.univ)
    (event : f.domain.isEmpty = false) :
    ∃ limit, ∀ maxPivots ≥ limit, f.least ≤ v ∧ v ≤ f.greatest →
      (D.lowerExpectation (m := Id) (Simplex.solve maxPivots) f).run = .ok v ∧
      (D.upperExpectation (m := Id) (Simplex.solve maxPivots) f).run = .ok v := by
  by_cases within : f.least ≤ v ∧ v ≤ f.greatest
  swap
  · exact ⟨0, fun _ _ inside => absurd inside within⟩
  have none : ¬D.IncursLossOn f.domain := fun loss =>
    (exists_losing_slope_both event v).1 (margin.incursLossOn_iff.1 loss) within
  obtain ⟨buys, sells⟩ := isPrice_both margin
  obtain ⟨top, top'⟩ := isGreatest_price buys sells none
  obtain ⟨limit, answers⟩ := exists_expectations_eq (margin.assessed event) top top'
  exact ⟨limit, fun maxPivots le _ => answers maxPivots le⟩

/-- One assessment of a gamble on a vacuous model. A lower prevision that is not beyond the
greatest payoff avoids loss, and then the lower expectation is the greater of the prevision and
the least payoff and the upper one is the greatest payoff; otherwise both are unbounded. A
prevision avoids loss exactly if it is between the least and the greatest payoff, and then both
expectations are the prevision. -/
theorem exists_oneAssessment (event : f.domain.isEmpty = false) (v : ℚ) :
    (∃ L, (vacuous f.domain).setLowerPrevision f v = .ok L ∧ ∃ limit, ∀ maxPivots ≥ limit,
      (L.avoidsSureLoss (m := Id) (Simplex.solve maxPivots)).run = .ok (decide (v ≤ f.greatest)) ∧
      (L.avoidsPartialLoss (m := Id) (Simplex.solve maxPivots)).run = .ok (decide (v ≤ f.greatest)) ∧
      (v ≤ f.greatest → (L.lowerExpectation (m := Id) (Simplex.solve maxPivots) f).run = .ok (max f.least v) ∧
        (L.upperExpectation (m := Id) (Simplex.solve maxPivots) f).run = .ok f.greatest) ∧
      (f.greatest < v →
        (L.lowerExpectation (m := Id) (Simplex.solve maxPivots) f).run = .error (.unsolved .unbounded) ∧
        (L.upperExpectation (m := Id) (Simplex.solve maxPivots) f).run = .error (.unsolved .unbounded))) ∧
    (∃ P, (vacuous f.domain).setPrevision f v = .ok P ∧ ∃ limit, ∀ maxPivots ≥ limit,
      (P.avoidsSureLoss (m := Id) (Simplex.solve maxPivots)).run =
        .ok (decide (f.least ≤ v ∧ v ≤ f.greatest)) ∧
      (P.avoidsPartialLoss (m := Id) (Simplex.solve maxPivots)).run =
        .ok (decide (f.least ≤ v ∧ v ≤ f.greatest)) ∧
      (f.least ≤ v ∧ v ≤ f.greatest →
        (P.lowerExpectation (m := Id) (Simplex.solve maxPivots) f).run = .ok v ∧
        (P.upperExpectation (m := Id) (Simplex.solve maxPivots) f).run = .ok v)) := by
  obtain ⟨L, lower, margin⟩ := exists_hasMargin_lower event v
  obtain ⟨P, both, margin'⟩ := exists_hasMargin_both event v
  refine ⟨⟨L, lower, ?_⟩, P, both, ?_⟩
  · have avoids : decide (v ≤ f.greatest) = true ↔ ¬∃ t ∈ Set.Ici 0, ∀ x ∈ f.domain,
        t * (f.shift (-v)).payoff x < 0 := by
      rw [exists_losing_slope_lower event, not_lt, decide_eq_true_iff]
    obtain ⟨limit, answers⟩ :=
      exists_limit_and (margin.exists_losses event avoids) (exists_lower_answers margin event)
    refine ⟨limit, fun maxPivots le => ?_⟩
    obtain ⟨⟨sure, whole⟩, values⟩ := answers maxPivots le
    exact ⟨sure, whole, values⟩
  · have avoids : decide (f.least ≤ v ∧ v ≤ f.greatest) = true ↔ ¬∃ t ∈ Set.univ, ∀ x ∈ f.domain,
        t * (f.shift (-v)).payoff x < 0 := by
      rw [exists_losing_slope_both event, not_not, decide_eq_true_iff]
    obtain ⟨limit, answers⟩ :=
      exists_limit_and (margin'.exists_losses event avoids) (exists_both_answers margin' event)
    refine ⟨limit, fun maxPivots le => ?_⟩
    obtain ⟨⟨sure, whole⟩, values⟩ := answers maxPivots le
    exact ⟨sure, whole, values⟩

theorem exists_oneAssessment_wager : wager.domain.isEmpty = false ∧
    ∃ L, (vacuous wager.domain).setLowerPrevision wager wager.greatest = .ok L ∧
      ∃ limit, ∀ maxPivots ≥ limit,
      (L.avoidsPartialLoss (m := Id) (Simplex.solve maxPivots)).run = .ok true ∧
      (L.lowerExpectation (m := Id) (Simplex.solve maxPivots) wager).run = .ok 2 := by
  have event : wager.domain.isEmpty = false := by decide +kernel
  have greatest : wager.greatest = 2 := by decide +kernel
  have least : wager.least = 0 := by decide +kernel
  obtain ⟨⟨L, lower, limit, answers⟩, -⟩ := exists_oneAssessment event wager.greatest
  refine ⟨event, L, lower, limit, fun maxPivots le => ?_⟩
  obtain ⟨-, whole, bounded, -⟩ := answers maxPivots le
  rw [decide_eq_true le_rfl] at whole
  obtain ⟨value, -⟩ := bounded le_rfl
  rw [least, greatest] at value
  exact ⟨whole, value⟩

end DesirabilitySet

end Prevision
