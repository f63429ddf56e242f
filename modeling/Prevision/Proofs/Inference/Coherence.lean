import Prevision.Proofs.Inference.Answers

/-!
# Coherence of lower and upper expectations

What may be paid for gambles on one event adds up, scales and shifts with them
(`IsPrice.add`, `IsPrice.scale`, `isPrice_shift_iff`), and no payoff below the
gamble lowers it (`IsPrice.mono_payoff`). Without a loss on the event no price is more
than the greatest payoff (`IsPrice.le_greatest`), so there is a greatest price
(`exists_isGreatest_price`).

Lower expectations are greatest prices, so they satisfy the same laws, and
whether there are any depends on the event alone (`exists_coherent`).
-/

namespace Prevision

variable {σ : Type} [State σ]

/-! ## Shifted sums and multiples -/

namespace Gamble

variable {f g : Gamble σ} {c d : ℚ}

theorem payoff_shift_add (same : g.domain = f.domain) (c d : ℚ) :
    ((f + g).shift (c + d)).payoff = (f.shift c).payoff + (g.shift d).payoff := by
  funext x
  rw [Pi.add_apply, payoff_shift, payoff_shift, payoff_shift, domain_add_of_eq same, same, payoff_add]
  split
  · exact add_add_add_comm _ _ _ _
  · exact (add_zero 0).symm

theorem payoff_shift_scale (a c : ℚ) (f : Gamble σ) :
    ((f.scale a).shift (a * c)).payoff = a • (f.shift c).payoff := by
  funext x
  rw [Pi.smul_apply, payoff_shift, payoff_shift, domain_scale, payoff_scale, smul_eq_mul, mul_ite,
    mul_add, mul_zero]

theorem payoff_shift_shift (c d : ℚ) (f : Gamble σ) :
    ((f.shift c).shift d).payoff = (f.shift (c + d)).payoff := by
  funext x
  rw [payoff_shift, payoff_shift, payoff_shift, domain_shift]
  split
  · exact add_assoc _ _ _
  · rfl

end Gamble

namespace DesirabilitySet

variable {D : DesirabilitySet σ} {f g : Gamble σ} {a c d v w : ℚ}

/-! ## The laws for prices -/

theorem IsPrice.add (same : g.domain = f.domain) (price : D.IsPrice f c) (price' : D.IsPrice g d) :
    D.IsPrice (f + g) (c + d) := by
  obtain ⟨u, generated, le⟩ := isPrice_iff_le_shift.1 price
  obtain ⟨t, generated', le'⟩ := isPrice_iff_le_shift.1 price'
  refine isPrice_iff_le_shift.2 ⟨u + t, generated.add generated', ?_⟩
  rw [neg_add, Gamble.payoff_shift_add same]
  exact add_le_add le le'

theorem IsPrice.scale (nonneg : 0 ≤ a) (price : D.IsPrice f c) : D.IsPrice (f.scale a) (a * c) := by
  obtain ⟨u, generated, le⟩ := isPrice_iff_le_shift.1 price
  refine isPrice_iff_le_shift.2 ⟨a • u, generated.smul nonneg, ?_⟩
  rw [← mul_neg, Gamble.payoff_shift_scale]
  exact smul_le_smul_of_nonneg_left le nonneg

theorem isPrice_shift_iff : D.IsPrice (f.shift c) v ↔ D.IsPrice f (v - c) := by
  rw [isPrice_iff_le_shift, isPrice_iff_le_shift, Gamble.payoff_shift_shift, neg_sub, sub_eq_add_neg]

theorem IsPrice.mono_payoff (same : g.domain = f.domain) (le : f.payoff ≤ g.payoff) (price : D.IsPrice f c) :
    D.IsPrice g c := by
  obtain ⟨u, generated, below⟩ := price
  refine ⟨u, generated, fun x hx => ?_⟩
  rw [same] at hx ⊢
  exact (below x hx).trans (le x)

theorem isPrice_least : D.IsPrice f f.least := isPrice_of_forall_le fun _ => Gamble.least_le

theorem isPrice_neg_greatest : D.IsPrice (-f) (-f.greatest) := isPrice_of_forall_le fun x hx => by
  rw [Gamble.domain_neg] at hx
  rw [Gamble.payoff_neg]
  exact neg_le_neg (Gamble.le_greatest hx)

theorem IsPrice.le_greatest (none : ¬D.IncursLossOn f.domain) (price : D.IsPrice f c) : c ≤ f.greatest :=
  not_lt.1 fun lt => none (incursLossOn_of_lt price isPrice_neg_greatest lt)

/-! ## Greatest prices -/

/-- Without a loss on the domain there is a greatest price. -/
theorem exists_isGreatest_price (assessed : D.cones.isEmpty = false) (none : ¬D.IncursLossOn f.domain) :
    ∃ v, IsGreatest {c | D.IsPrice f c} v := by
  obtain ⟨v, top, -⟩ | ⟨beyond, -⟩ := exists_lowerExpectation assessed f
  · exact ⟨v, top⟩
  · exact absurd ⟨f.greatest, fun c price => IsPrice.le_greatest none price⟩ beyond

theorem isGreatest_price_shift (top : IsGreatest {c | D.IsPrice f c} v) (c : ℚ) :
    IsGreatest {d | D.IsPrice (f.shift c) d} (v + c) := by
  refine ⟨isPrice_shift_iff.2 ?_, fun d price => sub_le_iff_le_add.1 (top.2 (isPrice_shift_iff.1 price))⟩
  rw [add_sub_cancel_right]
  exact top.1

/-- A positive multiple is undone by the inverse; the zero multiple has no payoff but zero. -/
theorem isGreatest_price_scale (none : ¬D.IncursLossOn f.domain) (nonneg : 0 ≤ a)
    (top : IsGreatest {c | D.IsPrice f c} v) : IsGreatest {d | D.IsPrice (f.scale a) d} (a * v) := by
  refine ⟨top.1.scale nonneg, fun d price => ?_⟩
  rcases nonneg.eq_or_lt with rfl | pos
  · have event : (f.scale 0).domain.isEmpty = false := by
      refine Bool.eq_false_iff.2 fun empty => none ⟨0, .zero, le_rfl, fun x hx => ?_⟩
      rw [Gamble.domain_scale] at empty
      exact absurd hx (SortedSet.eq_empty_iff.1 empty x)
    obtain ⟨x, -, attained⟩ := Gamble.exists_payoff_eq_greatest event
    have none' : ¬D.IncursLossOn (f.scale 0).domain := by rwa [Gamble.domain_scale]
    have le := IsPrice.le_greatest none' price
    rwa [← attained, Gamble.payoff_scale, zero_mul, ← zero_mul v] at le
  · have undone := IsPrice.scale (inv_nonneg.2 nonneg) price
    have same : f.domain = ((f.scale a).scale a⁻¹).domain := by rw [Gamble.domain_scale, Gamble.domain_scale]
    have original : D.IsPrice f (a⁻¹ * d) := undone.mono_payoff same fun x => by
      rw [Gamble.payoff_scale, Gamble.payoff_scale, inv_mul_cancel_left₀ pos.ne']
    exact (inv_mul_le_iff₀ pos).1 (top.2 original)

/-! ## Losses -/

/-- The opposite of the indicator of an event is at least some nonnegative combination of the rays. -/
def ConcedesUnit (D : DesirabilitySet σ) (event : SortedSet σ) : Prop :=
  ∃ w : Ray σ → ℚ, (∀ r ∈ D.generators, 0 ≤ w r) ∧
    ∀ x, ∑ r ∈ D.generators.toFinset, w r * r.payoff x ≤ (-Gamble.indicator event).payoff x

/-- A multiple of a loss on finitely many states is at least one in each of them. -/
theorem concedesUnit_iff {event : SortedSet σ} : D.ConcedesUnit event ↔ D.IncursLossOn event := by
  constructor
  · rintro ⟨w, nonneg, le⟩
    refine ⟨_, generated_iff_sum.2 ⟨w, nonneg, rfl⟩, fun x => (le x).trans ?_, fun x hx => (le x).trans_lt ?_⟩
    · rw [Gamble.payoff_neg]
      exact neg_nonpos.2 (Gamble.payoff_indicator_nonneg event x)
    · rw [Gamble.payoff_neg, Gamble.payoff_indicator, if_pos hx]
      exact neg_one_lt_zero
  · rintro ⟨u, generated, nonpos, negative⟩
    obtain ⟨n, pos, bound⟩ := exists_multiple_le event.toFinset.finite_toSet (fun _ => 1) u negative
    rw [abs_one] at bound
    obtain ⟨w, nonneg, same⟩ := generated_iff_sum.1 (generated.smul pos.le)
    refine ⟨w, nonneg, fun x => (congrFun same x).ge.trans ?_⟩
    rw [Pi.smul_apply, smul_eq_mul, Gamble.payoff_neg, Gamble.payoff_indicator]
    split
    · rename_i hx
      exact bound x hx
    · rw [neg_zero]
      exact mul_nonpos_of_nonneg_of_nonpos pos.le (nonpos x)

/-- The rays pay nothing outside the possibility space. -/
theorem concedesUnit_domain_iff : D.ConcedesUnit D.domain ↔ D.IncursSureLoss := by
  rw [concedesUnit_iff, incursSureLoss_iff_generated]
  refine exists_congr fun u => and_congr_right fun generated => and_iff_right_of_imp fun negative x => ?_
  by_cases hx : x ∈ D.domain
  · exact (negative x hx).le
  · exact (supports_of_generated generated x hx).le

/-! ## Coherence -/

/-- The expectations of two gambles, of a multiple and of a shift: there are none since something
is conceded, or they are coherent. -/
inductive Coherent (D : DesirabilitySet σ) (lower upper : Gamble σ → Except Error ℚ) (f g : Gamble σ)
    (a c : ℚ) : Prop
  | unbounded : D.ConcedesUnit f.domain → lower f = .error (.unsolved .unbounded) →
      lower g = .error (.unsolved .unbounded) → upper f = .error (.unsolved .unbounded) →
      Coherent D lower upper f g a c
  | bounded {v w u s : ℚ} :
      ¬D.ConcedesUnit f.domain → lower f = .ok v → lower g = .ok w → upper f = .ok u →
      lower (f + g) = .ok s → lower (f.scale a) = .ok (a * v) → lower (f.shift c) = .ok (v + c) →
      f.least ≤ v → v ≤ u → u ≤ f.greatest → v + w ≤ s → (f.payoff ≤ g.payoff → v ≤ w) →
      Coherent D lower upper f g a c

theorem exists_coherent_of_concedesUnit (assessed : D.cones.isEmpty = false)
    (same : g.domain = f.domain) (a c : ℚ)
    (loss : D.ConcedesUnit f.domain) : ∃ limit, ∀ maxPivots ≥ limit,
      Coherent D (fun h => (D.lowerExpectation (m := Id) (Simplex.solve maxPivots) h).run)
        (fun h => (D.upperExpectation (m := Id) (Simplex.solve maxPivots) h).run) f g a c := by
  have onFirst := concedesUnit_iff.1 loss
  have onSecond : D.IncursLossOn g.domain := by rwa [same]
  obtain ⟨limit, fails⟩ :=
    exists_limit_and (onFirst.exists_unbounded assessed) (onSecond.exists_unbounded assessed)
  exact ⟨limit, fun maxPivots le =>
    .unbounded loss (fails maxPivots le).1.1 (fails maxPivots le).2.1 (fails maxPivots le).1.2⟩

theorem exists_coherent_of_not_concedesUnit (assessed : D.cones.isEmpty = false) (same : g.domain = f.domain)
    (nonneg : 0 ≤ a) (c : ℚ) (kept : ¬D.ConcedesUnit f.domain) : ∃ limit, ∀ maxPivots ≥ limit,
      Coherent D (fun h => (D.lowerExpectation (m := Id) (Simplex.solve maxPivots) h).run)
        (fun h => (D.upperExpectation (m := Id) (Simplex.solve maxPivots) h).run) f g a c := by
  have none : ¬D.IncursLossOn f.domain := fun loss => kept (concedesUnit_iff.2 loss)
  have onSecond : ¬D.IncursLossOn g.domain := by rwa [same]
  have onOpposite : ¬D.IncursLossOn (-f).domain := by rwa [Gamble.domain_neg]
  have onSum : ¬D.IncursLossOn (f + g).domain := by rwa [Gamble.domain_add_of_eq same]
  obtain ⟨v, top⟩ := exists_isGreatest_price assessed none
  obtain ⟨w, topSecond⟩ := exists_isGreatest_price assessed onSecond
  obtain ⟨u, topOpposite⟩ := exists_isGreatest_price assessed onOpposite
  obtain ⟨s, topSum⟩ := exists_isGreatest_price assessed onSum
  rw [← neg_neg u] at topOpposite
  obtain ⟨limit, found⟩ := exists_limit_and (exists_expectations_eq assessed top topOpposite) <|
    exists_limit_and (exists_lowerExpectation_eq assessed topSecond) <|
    exists_limit_and (exists_lowerExpectation_eq assessed topSum) <|
    exists_limit_and (exists_lowerExpectation_eq assessed (isGreatest_price_scale none nonneg top))
      (exists_lowerExpectation_eq assessed (isGreatest_price_shift top c))
  refine ⟨limit, fun maxPivots le => ?_⟩
  obtain ⟨⟨first, upper⟩, second, sum, multiple, shifted⟩ := found maxPivots le
  refine .bounded kept first second upper sum multiple shifted (top.2 isPrice_least) ?_ ?_
    (topSum.2 (top.1.add same topSecond.1)) fun below => topSecond.2 (top.1.mono_payoff same below)
  · -- A crossing would be a loss.
    exact not_lt.1 fun lt => none (incursLossOn_of_lt top.1 topOpposite.1 lt)
  · exact neg_le_neg_iff.1 (topOpposite.2 isPrice_neg_greatest)

/-- With enough pivots, the expectations of gambles on one domain are coherent, or there are none
since the opposite of the indicator of the domain is at least what the rays generate; on the
possibility space that is sure loss. -/
theorem exists_coherent (assessed : D.cones.isEmpty = false) (same : g.domain = f.domain)
    (nonneg : 0 ≤ a) (c : ℚ) :
    ∃ limit, ∀ maxPivots ≥ limit,
      Coherent D (fun h => (D.lowerExpectation (m := Id) (Simplex.solve maxPivots) h).run)
        (fun h => (D.upperExpectation (m := Id) (Simplex.solve maxPivots) h).run) f g a c ∧
      ∃ b, (D.avoidsSureLoss (m := Id) (Simplex.solve maxPivots)).run = .ok b ∧
        (D.possibilitySpace = .ok f.domain → (b = false ↔ D.ConcedesUnit f.domain)) := by
  have coherent : ∃ limit, ∀ maxPivots ≥ limit, Coherent D
      (fun h => (D.lowerExpectation (m := Id) (Simplex.solve maxPivots) h).run)
      (fun h => (D.upperExpectation (m := Id) (Simplex.solve maxPivots) h).run) f g a c := by
    by_cases loss : D.ConcedesUnit f.domain
    · exact exists_coherent_of_concedesUnit assessed same a c loss
    · exact exists_coherent_of_not_concedesUnit assessed same nonneg c loss
  obtain ⟨limit, both⟩ := exists_limit_and coherent (exists_limit_avoidsSureLoss D)
  refine ⟨limit, fun maxPivots le => ⟨(both maxPivots le).1, ?_⟩⟩
  obtain ⟨b, answer, avoids⟩ := (both maxPivots le).2
  refine ⟨b, answer, fun space => ?_⟩
  rw [possibilitySpace_eq assessed, Except.ok.injEq] at space
  rw [← space, concedesUnit_domain_iff, ← Bool.not_eq_true, avoids, assessed,
    or_iff_right Bool.false_ne_true, not_not]

end DesirabilitySet

/-- Pays at least as much as the wager, in the same states. -/
def stake : Gamble Int := .ofList [(0, 2), (1, 1), (2, 1)]

theorem exists_coherent_stake : favoured.cones.isEmpty = false ∧ stake.domain = wager.domain ∧ (0 : ℚ) ≤ 2 ∧
    ∃ limit, ∀ maxPivots ≥ limit,
      favoured.Coherent (fun h => (favoured.lowerExpectation (m := Id) (Simplex.solve maxPivots) h).run)
        (fun h => (favoured.upperExpectation (m := Id) (Simplex.solve maxPivots) h).run) wager stake 2 (-1) ∧
      ∃ b, (favoured.avoidsSureLoss (m := Id) (Simplex.solve maxPivots)).run = .ok b ∧
        (favoured.possibilitySpace = .ok wager.domain →
          (b = false ↔ favoured.ConcedesUnit wager.domain)) := by
  have assessed : favoured.cones.isEmpty = false := by decide +kernel
  have same : stake.domain = wager.domain := by decide +kernel
  have nonneg : (0 : ℚ) ≤ 2 := by decide +kernel
  exact ⟨assessed, same, nonneg, DesirabilitySet.exists_coherent assessed same nonneg (-1)⟩

end Prevision
