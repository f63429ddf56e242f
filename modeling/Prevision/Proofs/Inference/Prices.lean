import Prevision.Proofs.Duality.Representation
import Prevision.Proofs.Inference.Limits
import Prevision.Proofs.Inference.Weights
import Prevision.Proofs.Program.Forms

/-!
# Prices

A price `c` for a gamble on an event `E` is one for which the gamble less
`c` on `E` is at least what the rays generate, in every state of the
possibility space and of `E`. The points of the program for the lower
expectation are the prices with their weights (`isPrice_iff_feasible`), so
unless pivots run out the lower expectation is the greatest price
(`lowerExpectation_outcome`).
-/

namespace Prevision

variable {σ : Type} [State σ]

namespace DesirabilitySet

variable {D : DesirabilitySet σ} {f : Gamble σ} {c : ℚ} {x : Row}

/-- The gamble less the price on its domain is at least what the rays generate. -/
def IsPrice (D : DesirabilitySet σ) (f : Gamble σ) (c : ℚ) : Prop :=
  ∃ u, Generated D.payoffs ⊥ u ∧
    ∀ x ∈ D.domain ∪ f.domain, u x + (if x ∈ f.domain then c else 0) ≤ f.payoff x

/-! ## The program -/

/-- The weights of the rays, which are to be nonnegative. -/
def signForms (D : DesirabilitySet σ) : List AffineForm :=
  (List.range D.generators.toList.length).map fun j => ⟨0, [(1 + j, 1)]⟩

/-- What the gamble pays in a state beyond the weighted rays and the price. -/
def marginForm (D : DesirabilitySet σ) (f : Gamble σ) (x : σ) : AffineForm :=
  ⟨f.payoff x, (D.generators.toList.zipIdx.map fun r => (1 + r.2, -r.1.payoff x)) ++
    if f.domain.contains x then [(0, -1)] else []⟩

theorem maximizes_priceProgram (assessed : D.cones.isEmpty = false) (f : Gamble σ) :
    (D.priceProgram f).Maximizes (1 + D.generators.toList.length) []
      (D.signForms ++ (D.domain ∪ f.domain).toList.map (D.marginForm f)) [(0, 1)] := by
  refine ⟨rfl, ?_, rfl, rfl, fun F hF => AffineForm.isWithin_iff.2 ?_, AffineForm.isWithin_iff.2 ?_⟩
  · obtain ⟨r, hr⟩ := exists_generator assessed
    have pos : 0 < D.generators.toList.length := List.length_pos_of_mem hr
    exact List.append_ne_nil_of_left_ne_nil
      (List.ne_nil_of_mem (List.mem_map_of_mem (List.mem_range.2 pos))) _
  · rw [List.nil_append] at hF
    rcases List.mem_append.1 hF with sign | margin
    · obtain ⟨j, hj, rfl⟩ := List.mem_map.1 sign
      have := List.mem_range.1 hj
      simpa using this
    · obtain ⟨x, -, rfl⟩ := List.mem_map.1 margin
      intro t ht
      rcases List.mem_append.1 ht with weight | price
      · obtain ⟨r, hr, rfl⟩ := List.mem_map.1 weight
        have := List.snd_lt_of_mem_zipIdx hr
        omega
      · split at price
        · rw [List.mem_singleton.1 price]
          exact Nat.lt_add_right _ Nat.one_pos
        · cases price
  · simp

/-- The value of a margin. -/
theorem value_marginForm (D : DesirabilitySet σ) (f : Gamble σ) (s : σ) (x : Row) :
    (D.marginForm f s).value x =
      f.payoff s - (weighted D.generators.toList 0 (fun j => Row.entry x (1 + j)) s +
      if s ∈ f.domain then Row.entry x 0 else 0) := by
  have price : AffineForm.sumTerms (if f.domain.contains s then [(0, -1)] else []) x =
      -if s ∈ f.domain then Row.entry x 0 else 0 := by
    simp only [SortedSet.contains_iff]
    split <;> simp
  rw [AffineForm.value_eq, marginForm, AffineForm.sumTerms_append, sumTerms_weighted, price]
  ring

theorem feasible_priceProgram_iff (assessed : D.cones.isEmpty = false) :
    (D.priceProgram f).Feasible x ↔ x.length = 1 + D.generators.toList.length ∧
      (∀ j < D.generators.toList.length, 0 ≤ Row.entry x (1 + j)) ∧
      ∀ s ∈ D.domain ∪ f.domain, weighted D.generators.toList 0 (fun j => Row.entry x (1 + j)) s +
        (if s ∈ f.domain then Row.entry x 0 else 0) ≤ f.payoff s := by
  have sign (j : ℕ) : (⟨0, [(1 + j, 1)]⟩ : AffineForm).value x = Row.entry x (1 + j) := by
    rw [AffineForm.value_single, zero_add, one_mul]
  rw [(maximizes_priceProgram assessed f).feasible_iff]
  simp only [List.not_mem_nil, false_imp_iff, implies_true, true_and, List.forall_mem_append, signForms,
    List.forall_mem_map, List.mem_range, sign, value_marginForm, sub_nonneg, SortedSet.mem_toList]

/-- The prices are the first entries of the feasible points. -/
theorem isPrice_iff_feasible (assessed : D.cones.isEmpty = false) :
    D.IsPrice f c ↔ ∃ x, (D.priceProgram f).Feasible x ∧ Row.entry x 0 = c := by
  constructor
  · rintro ⟨u, generated, le⟩
    obtain ⟨x, width, nonneg, rfl⟩ := generated_iff_row.1 generated
    have weight (j : ℕ) : Row.entry (c :: x) (1 + j) = Row.entry x j := by
      rw [Nat.add_comm, Row.entry_cons_succ]
    refine ⟨c :: x, (feasible_priceProgram_iff assessed).2 ⟨?_, fun j hj => ?_, ?_⟩, rfl⟩
    · rw [List.length_cons, width, Nat.add_comm]
    · rw [weight]
      exact nonneg j hj
    · rwa [funext weight]
  · rintro ⟨x, feasible, rfl⟩
    obtain ⟨width, nonneg, le⟩ := (feasible_priceProgram_iff assessed).1 feasible
    have weight (j : ℕ) : Row.entry x (1 + j) = Row.entry x.tail j := by rw [Nat.add_comm, Row.entry_tail]
    rw [funext weight] at le
    refine ⟨_, generated_iff_row.2 ⟨x.tail, ?_, fun j hj => ?_, rfl⟩, le⟩
    · rw [List.length_tail, width, Nat.add_sub_cancel_left]
    · rw [← weight]
      exact nonneg j hj

/-! ## The answer -/

/-- The lower expectation is the greatest price, or fails as there is no price or no greatest one. -/
inductive PriceOutcome (D : DesirabilitySet σ) (f : Gamble σ) (answer : Except Error ℚ) : Prop
  | greatest {v : ℚ} : IsGreatest {c | D.IsPrice f c} v → answer = .ok v → PriceOutcome D f answer
  | none : (∀ c, ¬D.IsPrice f c) → answer = .error (.unsolved .inconsistent) → PriceOutcome D f answer
  | unbounded :
      ¬BddAbove {c | D.IsPrice f c} → answer = .error (.unsolved .unbounded) → PriceOutcome D f answer

theorem run_optimum_price {limits : Limits} {r : Except Error Solution}
    (solved : (Simplex.solve limits.maxPivots (D.priceProgram f)).optimumOf (D.priceProgram f) = r) :
    (Query.optimum (Reasoner.within limits).solver (D.priceProgram f)).run = r := solved

theorem run_lowerExpectation_error {limits : Limits} {e : Error} (assessed : D.cones.isEmpty = false)
    (failed : (Simplex.solve limits.maxPivots (D.priceProgram f)).optimumOf (D.priceProgram f) = .error e) :
    ((Reasoner.within limits).lowerExpectation D f).run = .error e := by
  rw [Reasoner.lowerExpectation, lowerExpectation, assessed, if_neg Bool.false_ne_true]
  exact Query.run_bind_error (run_optimum_price failed)

theorem run_lowerExpectation_ok {limits : Limits} {s : Solution} {v : ℚ} (assessed : D.cones.isEmpty = false)
    (solved : (Simplex.solve limits.maxPivots (D.priceProgram f)).optimumOf (D.priceProgram f) = .ok s)
    (value : s.value = some v) : ((Reasoner.within limits).lowerExpectation D f).run = .ok v := by
  rw [Reasoner.lowerExpectation, lowerExpectation, assessed, if_neg Bool.false_ne_true]
  refine (Query.run_bind_ok (run_optimum_price solved)).trans ?_
  rw [value]
  rfl

/-- Once its program is decided, the lower expectation is the greatest price. -/
theorem priceOutcome_of_decided {limits : Limits} (assessed : D.cones.isEmpty = false)
    (decided : (Simplex.solve limits.maxPivots (D.priceProgram f)).status ≠ .undecided) :
    PriceOutcome D f ((Reasoner.within limits).lowerExpectation D f).run := by
  have price (x : Row) : AffineForm.sumTerms [(0, 1)] x = Row.entry x 0 := by simp
  cases (maximizes_priceProgram assessed f).outcome decided with
  | optimal optimal value =>
    rw [price] at value
    refine .greatest ⟨(isPrice_iff_feasible assessed).2 ⟨_, optimal.feasible, rfl⟩, fun c hc => ?_⟩
      (run_lowerExpectation_ok assessed optimal.accepted value)
    obtain ⟨x, feasible, rfl⟩ := (isPrice_iff_feasible assessed).1 hc
    have := optimal.best x feasible
    rwa [price, price] at this
  | inconsistent failed none =>
    refine .none (fun c hc => ?_) (run_lowerExpectation_error assessed failed)
    obtain ⟨x, feasible, -⟩ := (isPrice_iff_feasible assessed).1 hc
    exact none x feasible
  | unbounded failed beyond =>
    refine .unbounded (fun bounded => ?_) (run_lowerExpectation_error assessed failed)
    obtain ⟨bound, above⟩ := bounded
    obtain ⟨x, feasible, better⟩ := beyond bound
    rw [price] at better
    exact absurd (above ((isPrice_iff_feasible assessed).2 ⟨x, feasible, rfl⟩)) (not_le.2 better)

theorem lowerExpectation_outcome {limits : Limits} (assessed : D.cones.isEmpty = false)
    (fits : ((Reasoner.within limits).lowerExpectation D f).hitsLimit = false) :
    PriceOutcome D f ((Reasoner.within limits).lowerExpectation D f).run := by
  have asked := fits
  rw [Reasoner.lowerExpectation, lowerExpectation, assessed, if_neg Bool.false_ne_true] at asked
  exact priceOutcome_of_decided assessed (Query.decided_of_fits (Query.hitsLimit_of_bind asked))

/-- The lower expectation depends on the prices alone. -/
theorem PriceOutcome.eq_of_prices {D' : DesirabilitySet σ} {f' : Gamble σ} {answer answer' : Except Error ℚ}
    (h : PriceOutcome D f answer) (h' : PriceOutcome D' f' answer')
    (same : ∀ c, D.IsPrice f c ↔ D'.IsPrice f' c) :
    answer = answer' := by
  have sets : {c | D.IsPrice f c} = {c | D'.IsPrice f' c} := Set.ext same
  cases h with
  | greatest top eq =>
    rw [eq]
    rw [sets] at top
    cases h' with
    | greatest top' eq' => rw [eq', top.unique top']
    | none empty eq' => exact absurd top.1 (empty _)
    | unbounded beyond eq' => exact absurd ⟨_, top.2⟩ beyond
  | none empty eq =>
    rw [eq]
    cases h' with
    | greatest top' eq' => exact absurd ((same _).2 top'.1) (empty _)
    | none empty' eq' => rw [eq']
    | unbounded beyond eq' =>
      refine absurd ⟨0, fun c hc => ?_⟩ beyond
      exact absurd ((same c).2 hc) (empty c)
  | unbounded beyond eq =>
    rw [eq]
    rw [sets] at beyond
    cases h' with
    | greatest top' eq' => exact absurd ⟨_, top'.2⟩ beyond
    | none empty eq' =>
      refine absurd ⟨0, fun c hc => ?_⟩ beyond
      exact absurd hc (empty c)
    | unbounded beyond' eq' => rw [eq']

end DesirabilitySet

end Prevision
