import Prevision.Proofs.Duality.Envelope
import Prevision.Proofs.Inference.Threshold

/-!
# Expectations with enough pivots

There is a price for every gamble, so with enough pivots the lower expectation
is the greatest price or fails as the prices have no bound
(`exists_lowerExpectation`). Which of the two depends on the prices alone, and
the upper expectation is the opposite of what the prices for the opposite gamble
say (`exists_upperExpectation_eq`, `exists_upperExpectation_unbounded`).

So questions about gambles with the same prices agree
(`exists_lowerExpectation_agrees`, `exists_upperExpectation_agrees`).

Prices have no bound if the rays generate something that is negative wherever
the gamble is given and positive nowhere (`IncursLossOn.not_bddAbove`). Two
opposite gambles with prices that sum to more than nothing are such a case
(`incursLossOn_of_lt`), so without a loss opposite prices are the greatest ones
(`isGreatest_price`).
-/

namespace Prevision

/-! ## Queries with one answer -/

namespace Query

variable {α β : Type} {q r : Query Id α} {a : α} {e : Error}

/-- Both queries give the same result, and it is not for want of pivots or rays. -/
def Agrees (q r : Query Id α) : Prop := q.hitsLimit = false ∧ r.run = q.run

theorem Agrees.of_ok (hq : q.run = .ok a) (hr : r.run = .ok a) : q.Agrees r :=
  ⟨by rw [hitsLimit, hq], hr.trans hq.symm⟩

theorem Agrees.of_error (hq : q.run = .error e) (other : e.isLimit = false) (hr : r.run = .error e) :
    q.Agrees r :=
  ⟨by rwa [hitsLimit, hq], hr.trans hq.symm⟩

theorem Agrees.bind_pure (agrees : q.Agrees r) (f : α → β) :
    (q >>= fun a => pure (f a)).Agrees (r >>= fun a => pure (f a)) := by
  obtain ⟨fits, same⟩ := agrees
  cases answer : (show Except Error α from q.run) with
  | ok a => exact .of_ok (run_bind_ok answer) (run_bind_ok (same.trans answer))
  | error e =>
    exact .of_error (run_bind_error answer) (not_isLimit fits answer) (run_bind_error (same.trans answer))

end Query

namespace DesirabilitySet

variable {σ τ : Type} [State σ] [State τ] {D : DesirabilitySet σ} {D' : DesirabilitySet τ} {f : Gamble σ}
  {f' : Gamble τ} {c v : ℚ}

/-! ## Lower and upper expectations -/

/-- With enough pivots, the lower expectation is the greatest price, or fails as there is none. -/
theorem exists_lowerExpectation (assessed : D.cones.isEmpty = false) (f : Gamble σ) :
    (∃ v, IsGreatest {c | D.IsPrice f c} v ∧ ∃ limit, ∀ maxPivots ≥ limit,
      (D.lowerExpectation (m := Id) (Simplex.solve maxPivots) f).run = .ok v) ∨
    ¬BddAbove {c | D.IsPrice f c} ∧ ∃ limit, ∀ maxPivots ≥ limit,
      (D.lowerExpectation (m := Id) (Simplex.solve maxPivots) f).run = .error (.unsolved .unbounded) := by
  obtain ⟨limit, s, decided, eq⟩ := Simplex.exists_decided (maximizes_priceProgram assessed f).wellFormed
  have outcome (maxPivots : ℕ) (le : maxPivots ≥ limit) :
      PriceOutcome D f ((Reasoner.within { maxPivots }).lowerExpectation D f).run :=
    priceOutcome_of_decided assessed (by rwa [eq maxPivots le])
  have same (maxPivots : ℕ) (le : maxPivots ≥ limit) :=
    (outcome maxPivots le).eq_of_prices (outcome limit le_rfl) fun _ => Iff.rfl
  cases outcome limit le_rfl with
  | @greatest v top answer => exact .inl ⟨v, top, limit, fun maxPivots le => (same maxPivots le).trans answer⟩
  | none never _ =>
    obtain ⟨c, price⟩ := D.exists_isPrice f
    exact absurd price (never c)
  | unbounded beyond answer =>
    exact .inr ⟨beyond, limit, fun maxPivots le => (same maxPivots le).trans answer⟩

theorem exists_lowerExpectation_eq (assessed : D.cones.isEmpty = false)
    (top : IsGreatest {c | D.IsPrice f c} v) :
    ∃ limit, ∀ maxPivots ≥ limit, (D.lowerExpectation (m := Id) (Simplex.solve maxPivots) f).run = .ok v := by
  obtain ⟨w, top', answers⟩ | ⟨beyond, -⟩ := exists_lowerExpectation assessed f
  · rwa [top.unique top']
  · exact absurd ⟨v, top.2⟩ beyond

theorem exists_lowerExpectation_unbounded (assessed : D.cones.isEmpty = false)
    (beyond : ¬BddAbove {c | D.IsPrice f c}) : ∃ limit, ∀ maxPivots ≥ limit,
      (D.lowerExpectation (m := Id) (Simplex.solve maxPivots) f).run = .error (.unsolved .unbounded) := by
  obtain ⟨v, top, -⟩ | ⟨-, answers⟩ := exists_lowerExpectation assessed f
  · exact absurd ⟨v, top.2⟩ beyond
  · exact answers

theorem exists_upperExpectation_eq (assessed : D.cones.isEmpty = false)
    (top : IsGreatest {c | D.IsPrice (-f) c} (-v)) : ∃ limit, ∀ maxPivots ≥ limit,
      (D.upperExpectation (m := Id) (Simplex.solve maxPivots) f).run = .ok v := by
  obtain ⟨limit, answers⟩ := exists_lowerExpectation_eq assessed top
  refine ⟨limit, fun maxPivots le => ?_⟩
  have lower : ((Reasoner.within { maxPivots }).lowerExpectation D (-f)).run = .ok (-v) :=
    answers maxPivots le
  have upper := run_upperExpectation_ok lower
  rwa [neg_neg] at upper

theorem exists_upperExpectation_unbounded (assessed : D.cones.isEmpty = false)
    (beyond : ¬BddAbove {c | D.IsPrice (-f) c}) : ∃ limit, ∀ maxPivots ≥ limit,
      (D.upperExpectation (m := Id) (Simplex.solve maxPivots) f).run = .error (.unsolved .unbounded) := by
  obtain ⟨limit, answers⟩ := exists_lowerExpectation_unbounded assessed beyond
  refine ⟨limit, fun maxPivots le => ?_⟩
  have lower :
      ((Reasoner.within { maxPivots }).lowerExpectation D (-f)).run = .error (.unsolved .unbounded) :=
    answers maxPivots le
  have upper := run_upperExpectation_error lower
  exact upper

theorem exists_expectations_eq {w : ℚ} (assessed : D.cones.isEmpty = false)
    (top : IsGreatest {c | D.IsPrice f c} v)
    (top' : IsGreatest {c | D.IsPrice (-f) c} (-w)) : ∃ limit, ∀ maxPivots ≥ limit,
      (D.lowerExpectation (m := Id) (Simplex.solve maxPivots) f).run = .ok v ∧
      (D.upperExpectation (m := Id) (Simplex.solve maxPivots) f).run = .ok w :=
  exists_limit_and (exists_lowerExpectation_eq assessed top) (exists_upperExpectation_eq assessed top')

/-! ## Agreement -/

/-- With enough pivots, gambles with the same prices have the same lower expectation. -/
theorem exists_lowerExpectation_agrees (assessed : D.cones.isEmpty = false)
    (assessed' : D'.cones.isEmpty = false)
    (same : ∀ c, D'.IsPrice f' c ↔ D.IsPrice f c) : ∃ limit, ∀ maxPivots ≥ limit,
      (D.lowerExpectation (m := Id) (Simplex.solve maxPivots) f).Agrees
        (D'.lowerExpectation (m := Id) (Simplex.solve maxPivots) f') := by
  have prices : {c | D'.IsPrice f' c} = {c | D.IsPrice f c} := Set.ext same
  obtain ⟨v, top, answers⟩ | ⟨beyond, answers⟩ := exists_lowerExpectation assessed f
  · rw [← prices] at top
    obtain ⟨limit, both⟩ := exists_limit_and answers (exists_lowerExpectation_eq assessed' top)
    exact ⟨limit, fun maxPivots le => .of_ok (both maxPivots le).1 (both maxPivots le).2⟩
  · rw [← prices] at beyond
    obtain ⟨limit, both⟩ := exists_limit_and answers (exists_lowerExpectation_unbounded assessed' beyond)
    exact ⟨limit, fun maxPivots le => .of_error (both maxPivots le).1 rfl (both maxPivots le).2⟩

theorem exists_upperExpectation_agrees (assessed : D.cones.isEmpty = false)
    (assessed' : D'.cones.isEmpty = false)
    (same : ∀ c, D'.IsPrice (-f') c ↔ D.IsPrice (-f) c) : ∃ limit, ∀ maxPivots ≥ limit,
      (D.upperExpectation (m := Id) (Simplex.solve maxPivots) f).Agrees
        (D'.upperExpectation (m := Id) (Simplex.solve maxPivots) f') := by
  obtain ⟨limit, agrees⟩ := exists_lowerExpectation_agrees assessed assessed' same
  exact ⟨limit, fun maxPivots le => (agrees maxPivots le).bind_pure fun v => -v⟩

/-! ## Prices without a bound -/

/-- The rays generate something that is negative throughout an event and positive nowhere. -/
def IncursLossOn (D : DesirabilitySet σ) (event : SortedSet σ) : Prop :=
  ∃ u, Generated D.payoffs ⊥ u ∧ u ≤ 0 ∧ ∀ x ∈ event, u x < 0

/-- Any price may be raised by use of a loss on the whole domain of the gamble. -/
theorem IncursLossOn.not_bddAbove (loss : D.IncursLossOn f.domain) : ¬BddAbove {c | D.IsPrice f c} := by
  obtain ⟨u, generated, nonpos, negative⟩ := loss
  refine not_bddAbove_iff.2 fun bound => ?_
  obtain ⟨c, price⟩ := D.exists_isPrice f
  obtain ⟨w, generated', le⟩ := isPrice_iff_le_shift.1 price
  -- Enough of the loss makes good the difference between the bound and the price.
  obtain ⟨n, pos, large⟩ :=
    exists_multiple_le f.domain.toFinset.finite_toSet (fun _ => bound + 1 - c) u negative
  refine ⟨bound + 1, isPrice_iff_le_shift.2
    ⟨w + n • u, generated'.add (generated.smul pos.le), fun x => ?_⟩, lt_add_one _⟩
  have below := le x
  rw [Gamble.payoff_shift] at below ⊢
  show w x + n * u x ≤ _
  split at below <;> rename_i hx
  · have enough := (large x hx).trans (neg_le_neg (le_abs_self _))
    rw [if_pos hx]
    linarith
  · rw [if_neg hx]
    exact add_nonpos below (mul_nonpos_of_nonneg_of_nonpos pos.le (nonpos x))

/-- With a loss on the domain, neither expectation is bounded. -/
theorem IncursLossOn.exists_unbounded (loss : D.IncursLossOn f.domain) (assessed : D.cones.isEmpty = false) :
    ∃ limit, ∀ maxPivots ≥ limit,
      (D.lowerExpectation (m := Id) (Simplex.solve maxPivots) f).run = .error (.unsolved .unbounded) ∧
      (D.upperExpectation (m := Id) (Simplex.solve maxPivots) f).run = .error (.unsolved .unbounded) := by
  have opposite : D.IncursLossOn (-f).domain := by rwa [Gamble.domain_neg]
  exact exists_limit_and (exists_lowerExpectation_unbounded assessed loss.not_bddAbove)
    (exists_upperExpectation_unbounded assessed opposite.not_bddAbove)

/-- A gamble is bought for more than it is sold for. -/
theorem incursLossOn_of_lt (buys : D.IsPrice f c) (sells : D.IsPrice (-f) (-v)) (lt : v < c) :
    D.IncursLossOn f.domain := by
  obtain ⟨u, generated, le⟩ := isPrice_iff_le_shift.1 buys
  obtain ⟨w, generated', le'⟩ := isPrice_iff_le_shift.1 sells
  have sum (x : σ) : (u + w) x ≤ if x ∈ f.domain then v - c else 0 := by
    have below := add_le_add (le x) (le' x)
    rw [Gamble.payoff_shift, Gamble.payoff_shift, Gamble.domain_neg, Gamble.payoff_neg] at below
    refine below.trans_eq ?_
    split
    · ring
    · exact add_zero 0
  refine ⟨u + w, generated.add generated', fun x => (sum x).trans ?_, fun x hx => (sum x).trans_lt ?_⟩
  · split
    · exact sub_nonpos.2 lt.le
    · exact le_rfl
  · rw [if_pos hx]
    exact sub_neg.2 lt

/-- Without a loss, a price and its opposite for the opposite gamble are both the greatest. -/
theorem isGreatest_price (buys : D.IsPrice f v) (sells : D.IsPrice (-f) (-v))
    (none : ¬D.IncursLossOn f.domain) :
    IsGreatest {c | D.IsPrice f c} v ∧ IsGreatest {c | D.IsPrice (-f) c} (-v) := by
  refine ⟨⟨buys, fun c price => not_lt.1 fun lt => none (incursLossOn_of_lt price sells lt)⟩,
    ⟨sells, fun c price => not_lt.1 fun lt => none ?_⟩⟩
  have sells' : D.IsPrice (-f) (- -c) := by rwa [neg_neg]
  exact incursLossOn_of_lt buys sells' (neg_lt.1 lt)

end DesirabilitySet

end Prevision
