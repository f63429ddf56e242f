import Mathlib.Order.Bounds.Basic
import Prevision.Proofs.Duality.Closure
import Prevision.Proofs.Inference.Prices

/-!
# Natural extension as a lower envelope

The prices for a gamble are the lower bounds of its conditional expectations
under the members of a credal set that represents the desirable gambles,
together with its payoffs outside the possibility space
(`isPrice_iff_mem_lowerBounds`). These are finitely many values, so the lower
expectation is the least of them, and has no bound if there is none
(`naturalExtension_eq_envelope`).

The desirable gambles of the credal set of others are represented by the same
credal set, so they have the same lower and upper expectations
(`Reasoner.closed_keeps_expectations`).
-/

namespace Prevision

open DesirabilitySet

variable {σ : Type} [State σ] {D : DesirabilitySet σ} {K : CredalSet σ} {f : Gamble σ} {p : Pmf σ} {c v : ℚ}
  {limits : Limits}

namespace CredalSet

/-- The expectations of a gamble under the members that give its domain a positive probability,
and its payoffs outside the possibility space. -/
def conditionalValues (K : CredalSet σ) (D : DesirabilitySet σ) (f : Gamble σ) : Set ℚ :=
  {v | (∃ p ∈ K.members, 0 < p.chance f.domain ∧ p.expectation f = .ok v) ∨
    ∃ x ∈ f.domain, x ∉ D.domain ∧ f.payoff x = v}

theorem finite_conditionalValues (K : CredalSet σ) (D : DesirabilitySet σ) (f : Gamble σ) :
    (K.conditionalValues D f).Finite := by
  refine ((K.members.toFinset.finite_toSet.image fun p =>
    (∑ x ∈ f.domain.toFinset, p.probability x * f.payoff x) /
    p.chance f.domain).union (f.domain.toFinset.finite_toSet.image f.payoff)).subset ?_
  rintro v (⟨p, hp, pos, expected⟩ | ⟨x, hx, -, rfl⟩)
  · rw [Pmf.expectation_eq pos, Except.ok.injEq] at expected
    exact .inl ⟨p, hp, expected⟩
  · exact .inr ⟨x, hx, rfl⟩

/-- The values of the opposite gamble are the opposite values. -/
theorem mem_conditionalValues_neg : v ∈ K.conditionalValues D (-f) ↔ -v ∈ K.conditionalValues D f := by
  simp only [conditionalValues, Gamble.domain_neg]
  refine or_congr (exists_congr fun p => and_congr_right fun _ => and_congr_right fun _ => ?_)
    (exists_congr fun x => and_congr_right fun _ => and_congr_right fun _ => ?_)
  · exact Pmf.expectation_neg_eq_ok_iff
  · rw [Gamble.payoff_neg, neg_eq_iff_eq_neg]

end CredalSet

/-! ## Prices -/

/-- A price is accepted in the possibility space, and is at most the payoff in every other state. -/
theorem DesirabilitySet.isPrice_iff_accepts : D.IsPrice f c ↔
    D.Accepts (fun x => f.payoff x - if x ∈ f.domain then c else 0) ∧
      ∀ x ∈ f.domain, x ∉ D.domain → c ≤ f.payoff x := by
  constructor
  · rintro ⟨u, generated, le⟩
    refine ⟨⟨u, generated, fun x hx => le_sub_iff_add_le.2 (le x (SortedSet.mem_union.2 (.inl hx)))⟩,
      fun x hx out => ?_⟩
    have := le x (SortedSet.mem_union.2 (.inr hx))
    rwa [supports_of_generated generated x out, if_pos hx, zero_add] at this
  · rintro ⟨⟨u, generated, le⟩, outside⟩
    refine ⟨u, generated, fun x hx => ?_⟩
    by_cases inside : x ∈ D.domain
    · exact le_sub_iff_add_le.1 (le x inside)
    · have hx := (SortedSet.mem_union.1 hx).resolve_left inside
      rw [supports_of_generated generated x inside, if_pos hx, zero_add]
      exact outside x hx inside

/-- The expectation of a gamble less a price on its domain. -/
theorem product_margin (supports : D.domain.Supports p.probability) :
    D.domain.product (fun x => f.payoff x - if x ∈ f.domain then c else 0) p.probability =
      (∑ x ∈ f.domain.toFinset, p.probability x * f.payoff x) - c * p.chance f.domain := by
  have onDomain : f.domain.Supports fun x => f.payoff x - if x ∈ f.domain then c else 0 := fun x out => by
    show f.payoff x - (if x ∈ f.domain then c else 0) = 0
    rw [if_neg out, sub_zero]
    exact Table.payoff_eq_zero out
  rw [← SortedSet.product_eq_of_supports supports fun x hx => SortedSet.mem_union.2 (.inl hx),
    SortedSet.product_comm,
    SortedSet.product_eq_of_supports onDomain fun x hx => SortedSet.mem_union.2 (.inr hx),
    SortedSet.product_apply, Pmf.chance, Finset.mul_sum, ← Finset.sum_sub_distrib]
  refine Finset.sum_congr rfl fun x hx => ?_
  rw [if_pos (SortedSet.mem_toFinset.1 hx)]
  ring

/-- A price is at most the expectation under a member, if the member gives the domain a probability. -/
theorem product_margin_nonneg_iff (supports : D.domain.Supports p.probability) :
    0 ≤ D.domain.product (fun x => f.payoff x - if x ∈ f.domain then c else 0) p.probability ↔
      (0 < p.chance f.domain → ∀ v, p.expectation f = .ok v → c ≤ v) := by
  rw [product_margin supports, sub_nonneg]
  rcases (p.chance_nonneg f.domain).eq_or_lt with zero | pos
  · have none : ∑ x ∈ f.domain.toFinset, p.probability x * f.payoff x = 0 := Finset.sum_eq_zero fun x hx => by
      rw [Pmf.probability_eq_zero_of_chance zero.symm (SortedSet.mem_toFinset.1 hx), zero_mul]
    rw [none, ← zero, mul_zero]
    exact iff_of_true le_rfl fun pos => absurd pos (lt_irrefl 0)
  · rw [Pmf.expectation_eq pos, ← le_div_iff₀ pos]
    constructor
    · exact fun le _ v expected => le.trans_eq (Except.ok.inj expected)
    · exact fun le => le pos _ rfl

/-- The prices are the lower bounds of the values. -/
theorem CredalSet.Represents.isPrice_iff_mem_lowerBounds (represents : K.Represents D) :
    D.IsPrice f c ↔ c ∈ lowerBounds (K.conditionalValues D f) := by
  rw [isPrice_iff_accepts, represents.accepts]
  constructor
  · rintro ⟨products, outside⟩ v (⟨p, hp, pos, expected⟩ | ⟨x, hx, out, rfl⟩)
    · exact (product_margin_nonneg_iff (represents.supports p hp)).1 (products p hp) pos v expected
    · exact outside x hx out
  · intro below
    refine ⟨fun p hp => (product_margin_nonneg_iff (represents.supports p hp)).2 fun pos v expected => ?_,
      fun x hx out => below (.inr ⟨x, hx, out, rfl⟩)⟩
    exact below (.inl ⟨p, hp, pos, expected⟩)

/-- The lower expectation is the least of the values, and unbounded if there is none. -/
theorem CredalSet.Represents.lowerExpectation_eq (represents : K.Represents D)
    (assessed : D.cones.isEmpty = false)
    (fits : ((Reasoner.within limits).lowerExpectation D f).hitsLimit = false) :
    ((K.conditionalValues D f).Nonempty → ∃ v, IsLeast (K.conditionalValues D f) v ∧
        ((Reasoner.within limits).lowerExpectation D f).run = .ok v) ∧
      (K.conditionalValues D f = ∅ →
        ((Reasoner.within limits).lowerExpectation D f).run = .error (.unsolved .unbounded)) := by
  have prices : {c | D.IsPrice f c} = lowerBounds (K.conditionalValues D f) :=
    Set.ext fun c => represents.isPrice_iff_mem_lowerBounds
  have outcome := lowerExpectation_outcome assessed fits
  constructor
  · intro nonempty
    obtain ⟨v, mem, least⟩ := Set.exists_min_image _ id (K.finite_conditionalValues D f) nonempty
    have greatest : IsGreatest {c | D.IsPrice f c} v :=
      prices ▸ ⟨fun _ hw => least _ hw, fun c below => below mem⟩
    refine ⟨v, ⟨mem, fun _ hw => least _ hw⟩, ?_⟩
    cases outcome with
    | greatest top eq => rw [eq, greatest.unique top]
    | none empty _ => exact absurd greatest.1 (empty v)
    | unbounded beyond _ => exact absurd ⟨v, greatest.2⟩ beyond
  · intro empty
    have all (c : ℚ) : D.IsPrice f c := by
      rw [represents.isPrice_iff_mem_lowerBounds, empty]
      exact fun v hv => absurd hv (Set.notMem_empty v)
    cases outcome with
    | @greatest v top _ =>
      have := top.2 (all (v + 1))
      linarith
    | none none _ => exact absurd (all 0) (none 0)
    | unbounded _ eq => exact eq

/-! ## Lower and upper expectations -/

theorem run_upperExpectation_ok (h : ((Reasoner.within limits).lowerExpectation D (-f)).run = .ok v) :
    ((Reasoner.within limits).upperExpectation D f).run = .ok (-v) := Query.run_bind_ok h

theorem run_upperExpectation_error {e : Error}
    (h : ((Reasoner.within limits).lowerExpectation D (-f)).run = .error e) :
    ((Reasoner.within limits).upperExpectation D f).run = .error e := Query.run_bind_error h

/-- Gambles with the same lower expectations have the same upper expectations. -/
theorem run_upperExpectation_congr {D' : DesirabilitySet σ}
    (same : ((Reasoner.within limits).lowerExpectation D' (-f)).run =
      ((Reasoner.within limits).lowerExpectation D (-f)).run) :
    ((Reasoner.within limits).upperExpectation D' f).run =
      ((Reasoner.within limits).upperExpectation D f).run := by
  cases answer : (show Except Error ℚ from ((Reasoner.within limits).lowerExpectation D (-f)).run) with
  | ok v => rw [run_upperExpectation_ok (same.trans answer), run_upperExpectation_ok answer]
  | error e => rw [run_upperExpectation_error (same.trans answer), run_upperExpectation_error answer]

/-- The lower and the upper expectation are the least and the greatest of the conditional expectations under
the members of the credal set and the payoffs outside the possibility space. -/
theorem naturalExtension_eq_envelope (assessed : D.cones.isEmpty = false)
    (conversion : ((Reasoner.within limits).toCredalSet D).hitsLimit = false)
    (lower : ((Reasoner.within limits).lowerExpectation D f).hitsLimit = false)
    (upper : ((Reasoner.within limits).upperExpectation D f).hitsLimit = false) :
    ∃ K : CredalSet σ, ((Reasoner.within limits).toCredalSet D).run = .ok K ∧
      (∀ p ∈ K.members, 0 < p.chance f.domain → ∃ v, p.expectation f = .ok v) ∧
      ((K.conditionalValues D f).Nonempty →
        (∃ v, IsLeast (K.conditionalValues D f) v ∧
          ((Reasoner.within limits).lowerExpectation D f).run = .ok v) ∧
        ∃ v, IsGreatest (K.conditionalValues D f) v ∧
          ((Reasoner.within limits).upperExpectation D f).run = .ok v) ∧
      (K.conditionalValues D f = ∅ →
        ((Reasoner.within limits).lowerExpectation D f).run = .error (.unsolved .unbounded) ∧
        ((Reasoner.within limits).upperExpectation D f).run = .error (.unsolved .unbounded)) := by
  obtain ⟨K, run, polar⟩ := exists_toCredalSet assessed conversion
  have below := polar.represents.lowerExpectation_eq assessed lower
  have above := polar.represents.lowerExpectation_eq assessed (Query.hitsLimit_of_bind upper)
  refine ⟨K, run, fun p _ pos => ⟨_, Pmf.expectation_eq pos⟩, fun nonempty => ⟨below.1 nonempty, ?_⟩,
      fun empty =>
    ⟨below.2 empty, run_upperExpectation_error (above.2 (Set.eq_empty_iff_forall_notMem.2 fun v hv => ?_))⟩⟩
  · obtain ⟨w, hw⟩ := nonempty
    obtain ⟨v, ⟨mem, least⟩, answer⟩ :=
      above.1 ⟨-w, CredalSet.mem_conditionalValues_neg.2 (by rwa [neg_neg])⟩
    refine ⟨-v, ⟨CredalSet.mem_conditionalValues_neg.1 mem, fun w hw => ?_⟩, run_upperExpectation_ok answer⟩
    exact le_neg.1 (least (CredalSet.mem_conditionalValues_neg.2 (by rwa [neg_neg])))
  · rw [CredalSet.mem_conditionalValues_neg, empty] at hv
    exact hv

/-- Zero is at least as probable as one. -/
def favoured : DesirabilitySet Int :=
  .ofCones [.singleton ⟨.ofList [(0, 1), (1, -1)], by decide +kernel, by decide +kernel⟩]

/-- A gamble on the two states and one more. -/
def wager : Gamble Int := .ofList [(0, 2), (1, 0), (2, 1 / 2)]

theorem naturalExtension_eq_envelope_wager : favoured.cones.isEmpty = false ∧
    (Reasoner.exact.toCredalSet favoured).hitsLimit = false ∧
    (Reasoner.exact.lowerExpectation favoured wager).hitsLimit = false ∧
    (Reasoner.exact.upperExpectation favoured wager).hitsLimit = false ∧
    ∃ K : CredalSet Int, (Reasoner.exact.toCredalSet favoured).run = .ok K ∧
      (∀ p ∈ K.members, 0 < p.chance wager.domain → ∃ v, p.expectation wager = .ok v) ∧
      ((K.conditionalValues favoured wager).Nonempty →
        (∃ v, IsLeast (K.conditionalValues favoured wager) v ∧
          (Reasoner.exact.lowerExpectation favoured wager).run = .ok v) ∧
        ∃ v, IsGreatest (K.conditionalValues favoured wager) v ∧
          (Reasoner.exact.upperExpectation favoured wager).run = .ok v) ∧
      (K.conditionalValues favoured wager = ∅ →
        (Reasoner.exact.lowerExpectation favoured wager).run = .error (.unsolved .unbounded) ∧
        (Reasoner.exact.upperExpectation favoured wager).run = .error (.unsolved .unbounded)) := by
  have assessed : favoured.cones.isEmpty = false := by decide +kernel
  have conversion : (Reasoner.exact.toCredalSet favoured).hitsLimit = false := by decide +kernel
  have lower : (Reasoner.exact.lowerExpectation favoured wager).hitsLimit = false := by decide +kernel
  have upper : (Reasoner.exact.upperExpectation favoured wager).hitsLimit = false := by decide +kernel
  exact ⟨assessed, conversion, lower, upper, naturalExtension_eq_envelope assessed conversion lower upper⟩

/-! ## The closure of desirable gambles -/

/-- The desirable gambles of the credal set of others, over the same possibility space. -/
def Reasoner.closed {m : Type → Type} [Monad m] (r : Reasoner m) (D : DesirabilitySet σ) :
    Query m (DesirabilitySet σ) := do
  r.toDesirabilitySetOn (← r.toCredalSet D) (← Query.ofExcept D.possibilitySpace)

/-- The members are on the possibility space, so they add no state to it. -/
theorem CredalSet.Represents.union_domain (represents : K.Represents D) : D.domain ∪ K.domain = D.domain := by
  refine SortedSet.ext fun x => ?_
  rw [SortedSet.mem_union, or_iff_left_iff_imp]
  exact represents.mem_domain

/-- What represents the same gambles, on the same possibility space, has the same prices. -/
theorem CredalSet.Represents.isPrice_congr {D' : DesirabilitySet σ} (represents : K.Represents D)
    (represents' : K.Represents D') (space : D'.domain = D.domain) : D'.IsPrice f c ↔ D.IsPrice f c := by
  rw [isPrice_iff_accepts, isPrice_iff_accepts, represents.accepts, represents'.accepts, space]

/-- The closure has the same possibility space and the same prices. -/
theorem Reasoner.exists_closed (assessed : D.cones.isEmpty = false)
    (fits : ((Reasoner.within limits).closed D).hitsLimit = false) :
    ∃ D' : DesirabilitySet σ, ((Reasoner.within limits).closed D).run = .ok D' ∧ D'.cones.isEmpty = false ∧
      D'.domain = D.domain ∧ ∀ f c, D'.IsPrice f c ↔ D.IsPrice f c := by
  have query : (within limits).closed D = ((within limits).toCredalSet D >>= fun K =>
      Query.ofExcept D.possibilitySpace >>= fun space => (within limits).toDesirabilitySetOn K space) := rfl
  rw [query] at fits ⊢
  obtain ⟨K, converted, polar⟩ := exists_toCredalSet assessed (Query.hitsLimit_of_bind fits)
  have rest := Query.hitsLimit_of_bind_ok fits converted
  have represents := polar.represents
  have space : (Query.ofExcept (m := Id) D.possibilitySpace).run = .ok D.domain :=
    D.possibilitySpace_eq assessed
  have states : (D.domain ∪ K.domain).isEmpty = false := by
    rw [represents.union_domain]
    exact SortedSet.isEmpty_eq_false_iff.2 (exists_mem_domain assessed)
  obtain ⟨D', run, closure⟩ :=
    CredalSet.exists_toDesirabilitySetOn states (Query.hitsLimit_of_bind_ok rest space)
  rw [represents.union_domain] at closure states
  refine ⟨D', (Query.run_bind_ok converted).trans ((Query.run_bind_ok space).trans run),
    closure.assessed states, closure.domain_eq, fun f c => ?_⟩
  exact represents.isPrice_congr (closure.represents represents.supports) closure.domain_eq

/-- Closing desirable gambles through their credal set keeps the possibility space, and the lower and upper
expectations as results. -/
theorem Reasoner.closed_keeps_expectations (assessed : D.cones.isEmpty = false)
    (fits : ((Reasoner.within limits).closed D).hitsLimit = false) :
    ∃ D' : DesirabilitySet σ, ((Reasoner.within limits).closed D).run = .ok D' ∧
      D'.possibilitySpace = D.possibilitySpace ∧ ∀ f : Gamble σ,
        (((Reasoner.within limits).lowerExpectation D f).hitsLimit = false →
          ((Reasoner.within limits).lowerExpectation D' f).hitsLimit = false →
          ((Reasoner.within limits).lowerExpectation D' f).run =
            ((Reasoner.within limits).lowerExpectation D f).run) ∧
        (((Reasoner.within limits).upperExpectation D f).hitsLimit = false →
          ((Reasoner.within limits).upperExpectation D' f).hitsLimit = false →
          ((Reasoner.within limits).upperExpectation D' f).run =
            ((Reasoner.within limits).upperExpectation D f).run) := by
  obtain ⟨D', run, assessed', domain, prices⟩ := exists_closed assessed fits
  have lower (f : Gamble σ) (fits : ((Reasoner.within limits).lowerExpectation D f).hitsLimit = false)
      (fits' : ((Reasoner.within limits).lowerExpectation D' f).hitsLimit = false) :
      ((Reasoner.within limits).lowerExpectation D' f).run =
        ((Reasoner.within limits).lowerExpectation D f).run :=
    (lowerExpectation_outcome assessed' fits').eq_of_prices (lowerExpectation_outcome assessed fits)
      (prices f)
  refine ⟨D', run, ?_, fun f => ⟨lower f, fun fits fits' => run_upperExpectation_congr ?_⟩⟩
  · rw [D'.possibilitySpace_eq assessed', domain, D.possibilitySpace_eq assessed]
  · exact lower (-f) (Query.hitsLimit_of_bind fits) (Query.hitsLimit_of_bind fits')

theorem Reasoner.closed_keeps_expectations_favoured : favoured.cones.isEmpty = false ∧
    (Reasoner.exact.closed favoured).hitsLimit = false ∧
    ∃ D' : DesirabilitySet Int, (Reasoner.exact.closed favoured).run = .ok D' ∧
      D'.possibilitySpace = favoured.possibilitySpace ∧
      (Reasoner.exact.lowerExpectation D' wager).run = (Reasoner.exact.lowerExpectation favoured wager).run ∧
      (Reasoner.exact.upperExpectation D' wager).run =
        (Reasoner.exact.upperExpectation favoured wager).run := by
  have assessed : favoured.cones.isEmpty = false := by decide +kernel
  have fits : (Reasoner.exact.closed favoured).hitsLimit = false := by decide +kernel
  have lower :
      (Reasoner.exact.closed favoured >>= fun D' => Reasoner.exact.lowerExpectation D' wager).hitsLimit =
      false := by decide +kernel
  have upper :
      (Reasoner.exact.closed favoured >>= fun D' => Reasoner.exact.upperExpectation D' wager).hitsLimit =
      false := by decide +kernel
  obtain ⟨D', run, space, keeps⟩ := Reasoner.closed_keeps_expectations assessed fits
  have lower' := Query.hitsLimit_of_bind_ok lower run
  have upper' := Query.hitsLimit_of_bind_ok upper run
  exact ⟨assessed, fits, D', run, space, (keeps wager).1 (by decide +kernel) lower',
    (keeps wager).2 (by decide +kernel) upper'⟩

end Prevision
