import Prevision.Proofs.Inference.Answers
import Prevision.Proofs.Model.Maps

/-!
# Assessments of previsions

The cone of a lower prevision `v` for a gamble `f` holds the indicator of the
domain and the direction of the margin, which is `f` less `v` on its domain,
unless the margin pays nothing (`exists_lowerPrevisionCone`). The margin is
generated in any case, so `v` is a price (`isPrice_of_assesses`), also with any
further assessments, which only add prices (`IsPrice.mono`).

Hence every assessment is honoured by the lower and the upper expectation, and
more assessments make the lower expectation no less (`assessments_honoured`).
-/

namespace Prevision

variable {σ : Type} [State σ]

/-! ## The cone of an assessment -/

/-- The rays are the indicator of an event and the direction of a margin, unless that pays nothing. -/
structure Cone.Assesses (C : Cone σ) (E : SortedSet σ) (margin : σ → ℚ) : Prop where
  exists_indicator : ∃ r ∈ C.rays, r.payoff = (Gamble.indicator E).payoff
  exists_margin : margin = 0 ∨ ∃ r ∈ C.rays, Parallel margin r.payoff
  ray : ∀ r ∈ C.rays, r.payoff = (Gamble.indicator E).payoff ∨ Parallel margin r.payoff

theorem Cone.Assesses.isEmpty_eq {C : Cone σ} {E : SortedSet σ} {margin : σ → ℚ}
    (assesses : C.Assesses E margin) :
    C.isEmpty = false := by
  obtain ⟨r, hr, -⟩ := assesses.exists_indicator
  exact SortedSet.isEmpty_eq_false_iff.2 ⟨r, hr⟩

namespace DesirabilitySet

variable {D D' : DesirabilitySet σ} {C : Cone σ} {f : Gamble σ} {c v : ℚ}

/-- What a gamble pays beyond its lower prevision. -/
theorem payoff_margin (r : Ray σ) (indicator : r.payoff = (Gamble.indicator f.domain).payoff) (v : ℚ) :
    (f - r.gamble.scale v).payoff = (f.shift (-v)).payoff := by
  funext x
  have at_x : r.gamble.payoff x = if x ∈ f.domain then 1 else 0 :=
    (congrFun indicator x).trans Gamble.payoff_indicator
  rw [Gamble.payoff_sub, Gamble.payoff_scale, at_x, Gamble.payoff_shift]
  split
  · rw [mul_one, sub_eq_add_neg]
  · rename_i out
    rw [show f.payoff x = 0 from Table.payoff_eq_zero out, mul_zero, sub_zero]

theorem exists_lowerPrevisionCone (event : f.domain.isEmpty = false) (v : ℚ) :
    ∃ C, lowerPrevisionCone f v = .ok C ∧ C.Assesses f.domain (f.shift (-v)).payoff := by
  obtain ⟨i, direction, indicator⟩ := Ray.exists_indicator event
  have margin := payoff_margin i indicator v
  cases none : (f - i.gamble.scale v).isZero with
  | true =>
    refine ⟨.singleton i, ?_, ⟨i, SortedSet.mem_singleton.2 rfl, indicator⟩, .inl ?_, fun r hr => .inl ?_⟩
    · rw [lowerPrevisionCone, direction]
      exact if_pos none
    · rw [← margin, Gamble.isZero_iff.1 none]
    · rw [SortedSet.mem_singleton.1 hr, indicator]
  | false =>
    have ne : (f - i.gamble.scale v).payoff ≠ 0 :=
      fun zero => absurd (Gamble.isZero_iff.2 zero) (none ▸ Bool.false_ne_true)
    obtain ⟨s, direction', parallel⟩ := Ray.exists_parallel ne
    rw [margin] at parallel
    refine ⟨.ofRays [s, i], ?_, ⟨i, SortedSet.mem_ofList.2 (by simp), indicator⟩,
      .inr ⟨s, SortedSet.mem_ofList.2 List.mem_cons_self, parallel⟩, fun r hr => ?_⟩
    · rw [lowerPrevisionCone, direction]
      refine (if_neg (none ▸ Bool.false_ne_true)).trans ?_
      rw [direction']
      rfl
    · rcases List.mem_pair.1 (SortedSet.mem_ofList.1 hr) with rfl | rfl
      · exact .inr parallel
      · exact .inl indicator

/-- An assessment adds its cone. -/
theorem exists_setLowerPrevision (event : f.domain.isEmpty = false) (D : DesirabilitySet σ) (v : ℚ) :
    ∃ C, C.Assesses f.domain (f.shift (-v)).payoff ∧ D.setLowerPrevision f v = .ok (D.insert C) := by
  obtain ⟨C, cone, assesses⟩ := exists_lowerPrevisionCone event v
  refine ⟨C, assesses, ?_⟩
  rw [setLowerPrevision, cone]
  rfl

/-! ## More assessments -/

/-- Every assessment of the other set is one of this set. -/
def Includes (D' D : DesirabilitySet σ) : Prop := ∀ C ∈ D.cones, C ∈ D'.cones

theorem includes_insert (D : DesirabilitySet σ) (C : Cone σ) : (D.insert C).Includes D :=
  fun _ hA => mem_cones_insert.2 (.inl hA)

theorem Includes.mem_of_insert (more : D'.Includes (D.insert C)) (rays : C.isEmpty = false) : C ∈ D'.cones :=
  more C (mem_cones_insert.2 (.inr ⟨rfl, rays⟩))

theorem Includes.generated (more : D'.Includes D) {u : σ → ℚ} (generated : Generated D.payoffs ⊥ u) :
    Generated D'.payoffs ⊥ u := by
  refine generated.mono ?_
  rintro _ ⟨r, hr, rfl⟩
  obtain ⟨C, hC, hr⟩ := mem_generators.1 hr
  exact ⟨r, mem_generators.2 ⟨C, more C hC, hr⟩, rfl⟩

theorem IsPrice.mono (price : D.IsPrice f c) (more : D'.Includes D) : D'.IsPrice f c := by
  rw [isPrice_iff_le_shift] at price ⊢
  obtain ⟨u, generated, le⟩ := price
  exact ⟨u, more.generated generated, le⟩

/-- Fewer assessments give a lower expectation where more of them do, and it is no greater. -/
theorem exists_lowerExpectation_mono (assessed : D.cones.isEmpty = false) (more : D'.Includes D)
    (g : Gamble σ) :
    ∃ limit, ∀ maxPivots ≥ limit, ∀ w',
      (D'.lowerExpectation (m := Id) (Simplex.solve maxPivots) g).run = .ok w' →
      ∃ w, (D.lowerExpectation (m := Id) (Simplex.solve maxPivots) g).run = .ok w ∧ w ≤ w' := by
  obtain ⟨C, hC⟩ := SortedSet.isEmpty_eq_false_iff.1 assessed
  have assessed' : D'.cones.isEmpty = false := SortedSet.isEmpty_eq_false_iff.2 ⟨C, more C hC⟩
  obtain ⟨v', top', answers'⟩ | ⟨-, limit', answers'⟩ := exists_lowerExpectation assessed' g
  · obtain ⟨v, top, answers⟩ | ⟨beyond, -⟩ := exists_lowerExpectation assessed g
    · obtain ⟨limit, both⟩ := exists_limit_and answers answers'
      refine ⟨limit, fun maxPivots le w' answer => ⟨v, (both maxPivots le).1, ?_⟩⟩
      cases (both maxPivots le).2.symm.trans answer
      exact top'.2 (top.1.mono more)
    · exact absurd ⟨v', fun c price => top'.2 (price.mono more)⟩ beyond
  · refine ⟨limit', fun maxPivots le w' answer => ?_⟩
    cases (answers' maxPivots le).symm.trans answer

/-! ## Assessed prices -/

theorem generated_margin {E : SortedSet σ} {margin : σ → ℚ} (hC : C ∈ D.cones)
    (assesses : C.Assesses E margin) :
    Generated D.payoffs ⊥ margin := by
  rcases assesses.exists_margin with rfl | ⟨r, hr, a, pos, rfl⟩
  · exact .zero
  · have ray : r.payoff ∈ D.payoffs := ⟨r, mem_generators.2 ⟨C, hC, hr⟩, rfl⟩
    exact .ray ray pos.le

/-- An assessed lower prevision is a price. -/
theorem isPrice_of_assesses (hC : C ∈ D.cones)
    (assesses : C.Assesses f.domain (f.shift (-v)).payoff) : D.IsPrice f v :=
  isPrice_iff_le_shift.2 ⟨_, generated_margin hC assesses, le_rfl⟩

theorem exists_lowerExpectation_ge (assessed : D.cones.isEmpty = false) (price : D.IsPrice f v) :
    ∃ limit, ∀ maxPivots ≥ limit,
      (D.lowerExpectation (m := Id) (Simplex.solve maxPivots) f).run = .error (.unsolved .unbounded) ∨
      ∃ w, (D.lowerExpectation (m := Id) (Simplex.solve maxPivots) f).run = .ok w ∧ v ≤ w := by
  obtain ⟨w, top, limit, answers⟩ | ⟨-, limit, answers⟩ := exists_lowerExpectation assessed f
  · exact ⟨limit, fun maxPivots le => .inr ⟨w, answers maxPivots le, top.2 price⟩⟩
  · exact ⟨limit, fun maxPivots le => .inl (answers maxPivots le)⟩

theorem exists_upperExpectation_le (assessed : D.cones.isEmpty = false) (price : D.IsPrice (-f) (-v)) :
    ∃ limit, ∀ maxPivots ≥ limit,
      (D.upperExpectation (m := Id) (Simplex.solve maxPivots) f).run = .error (.unsolved .unbounded) ∨
      ∃ w, (D.upperExpectation (m := Id) (Simplex.solve maxPivots) f).run = .ok w ∧ w ≤ v := by
  obtain ⟨w, top, -⟩ | ⟨beyond, -⟩ := exists_lowerExpectation assessed (-f)
  · rw [← neg_neg w] at top
    obtain ⟨limit, answers⟩ := exists_upperExpectation_eq assessed top
    exact ⟨limit, fun maxPivots le =>
      .inr ⟨-w, answers maxPivots le, neg_le.2 ((top.2 price).trans_eq (neg_neg w))⟩⟩
  · obtain ⟨limit, answers⟩ := exists_upperExpectation_unbounded assessed beyond
    exact ⟨limit, fun maxPivots le => .inl (answers maxPivots le)⟩

/-- With opposite prices for opposite gambles, both expectations are that price, or both are unbounded. -/
theorem exists_expectations_of_opposite (assessed : D.cones.isEmpty = false) (buys : D.IsPrice f v)
    (sells : D.IsPrice (-f) (-v)) : ∃ limit, ∀ maxPivots ≥ limit,
      ((D.lowerExpectation (m := Id) (Simplex.solve maxPivots) f).run = .ok v ∧
        (D.upperExpectation (m := Id) (Simplex.solve maxPivots) f).run = .ok v) ∨
      ((D.lowerExpectation (m := Id) (Simplex.solve maxPivots) f).run = .error (.unsolved .unbounded) ∧
        (D.upperExpectation (m := Id) (Simplex.solve maxPivots) f).run = .error (.unsolved .unbounded)) := by
  by_cases loss : D.IncursLossOn f.domain
  · obtain ⟨limit, unbounded⟩ := loss.exists_unbounded assessed
    exact ⟨limit, fun maxPivots le => .inr (unbounded maxPivots le)⟩
  · obtain ⟨top, top'⟩ := isGreatest_price buys sells loss
    obtain ⟨limit, answers⟩ := exists_expectations_eq assessed top top'
    exact ⟨limit, fun maxPivots le => .inl (answers maxPivots le)⟩

/-- Every assessment succeeds and is honoured, whatever else is assessed: with enough pivots an
expectation is on its side of an assessed prevision or is unbounded. More assessments make the
lower expectation no less. -/
theorem assessments_honoured (event : f.domain.isEmpty = false) (D : DesirabilitySet σ) (v : ℚ) :
    (∃ L, D.setLowerPrevision f v = .ok L ∧ ∀ D' : DesirabilitySet σ, D'.Includes L →
      ∃ limit, ∀ maxPivots ≥ limit,
      (D'.lowerExpectation (m := Id) (Simplex.solve maxPivots) f).run = .error (.unsolved .unbounded) ∨
      ∃ w, (D'.lowerExpectation (m := Id) (Simplex.solve maxPivots) f).run = .ok w ∧ v ≤ w) ∧
    (∃ U, D.setUpperPrevision f v = .ok U ∧ ∀ D' : DesirabilitySet σ, D'.Includes U →
      ∃ limit, ∀ maxPivots ≥ limit,
      (D'.upperExpectation (m := Id) (Simplex.solve maxPivots) f).run = .error (.unsolved .unbounded) ∨
      ∃ w, (D'.upperExpectation (m := Id) (Simplex.solve maxPivots) f).run = .ok w ∧ w ≤ v) ∧
    (∃ P, D.setPrevision f v = .ok P ∧ ∀ D' : DesirabilitySet σ, D'.Includes P →
      ∃ limit, ∀ maxPivots ≥ limit,
      ((D'.lowerExpectation (m := Id) (Simplex.solve maxPivots) f).run = .ok v ∧
        (D'.upperExpectation (m := Id) (Simplex.solve maxPivots) f).run = .ok v) ∨
      ((D'.lowerExpectation (m := Id) (Simplex.solve maxPivots) f).run = .error (.unsolved .unbounded) ∧
        (D'.upperExpectation (m := Id) (Simplex.solve maxPivots) f).run = .error (.unsolved .unbounded))) ∧
    ∀ D' : DesirabilitySet σ, D.cones.isEmpty = false → D'.Includes D →
      ∀ g, ∃ limit, ∀ maxPivots ≥ limit,
      ∀ w', (D'.lowerExpectation (m := Id) (Simplex.solve maxPivots) g).run = .ok w' →
        ∃ w, (D.lowerExpectation (m := Id) (Simplex.solve maxPivots) g).run = .ok w ∧ w ≤ w' := by
  have event' : (-f).domain.isEmpty = false := by rwa [Gamble.domain_neg]
  obtain ⟨C, lower, done⟩ := exists_setLowerPrevision event D v
  obtain ⟨C', upper, done'⟩ := exists_setLowerPrevision event' D (-v)
  obtain ⟨C'', upper', done''⟩ := exists_setLowerPrevision event' (D.insert C) (-v)
  have nonempty {A : Cone σ} {D' : DesirabilitySet σ} (hA : A ∈ D'.cones) : D'.cones.isEmpty = false :=
    SortedSet.isEmpty_eq_false_iff.2 ⟨A, hA⟩
  refine ⟨⟨_, done, fun D' more => ?_⟩, ⟨_, done', fun D' more => ?_⟩,
    ⟨(D.insert C).insert C'', ?_, fun D' more => ?_⟩,
    fun D' assessed more => exists_lowerExpectation_mono assessed more⟩
  · have mem := more.mem_of_insert lower.isEmpty_eq
    exact exists_lowerExpectation_ge (nonempty mem) (isPrice_of_assesses mem lower)
  · have mem := more.mem_of_insert upper.isEmpty_eq
    exact exists_upperExpectation_le (nonempty mem) (isPrice_of_assesses mem upper)
  · rw [setPrevision, done]
    exact done''
  · have mem : C ∈ D'.cones :=
      more C (includes_insert _ C'' C (mem_cones_insert.2 (.inr ⟨rfl, lower.isEmpty_eq⟩)))
    have mem' := more.mem_of_insert upper'.isEmpty_eq
    exact exists_expectations_of_opposite (nonempty mem) (isPrice_of_assesses mem lower)
      (isPrice_of_assesses mem' upper')

theorem assessments_honoured_wager : wager.domain.isEmpty = false ∧
    ∃ L, favoured.setLowerPrevision wager 1 = .ok L ∧ ∃ limit, ∀ maxPivots ≥ limit,
      (L.lowerExpectation (m := Id) (Simplex.solve maxPivots) wager).run = .error (.unsolved .unbounded) ∨
      ∃ w, (L.lowerExpectation (m := Id) (Simplex.solve maxPivots) wager).run = .ok w ∧ 1 ≤ w := by
  have event : wager.domain.isEmpty = false := by decide +kernel
  obtain ⟨⟨L, done, honoured⟩, -⟩ := assessments_honoured event favoured 1
  exact ⟨event, L, done, honoured L fun C hC => hC⟩

end DesirabilitySet

end Prevision
