import Prevision.Proofs.Duality.RoundTrip
import Prevision.Proofs.Inference.PartialLoss
import Prevision.Proofs.Inference.Prices
import Prevision.Proofs.Inference.SureLoss
import Prevision.Proofs.Inference.Threshold

/-!
# What can go wrong

A query of the exact reasoner fails for want of pivots or rays, or since it asks
something of a model without assessments or members, or since an expectation is
unbounded. It never fails otherwise (`Reasoner.within_failsAsDocumented`).

That the programs are well formed and their answers complete excludes most other
failures. Beyond this a round of stripping cones is bounded, one of avoiding partial
loss has a point and is bounded, there is a price for every gamble, and what is
enumerated are gambles with directions and functions with masses.
-/

namespace Prevision

open AffineForm (sumTerms)

/-! ## Failures of queries -/

namespace Query

variable {α β : Type} {q r : Query Id α} {next : α → Query Id β} {a : α} {e : Error} {errors : List Error}

/-- The query has an answer, or fails with one of the given errors. -/
def FailsOnly (q : Query Id α) (errors : List Error) : Prop := ∀ e, q.run = .error e → e ∈ errors

theorem FailsOnly.of_ok (h : q.run = .ok a) : q.FailsOnly errors :=
  fun _ failed => nomatch h.symm.trans failed

theorem FailsOnly.of_error (h : q.run = .error e) (mem : e ∈ errors) : q.FailsOnly errors :=
  fun e' failed => by
  cases h.symm.trans failed
  exact mem

theorem FailsOnly.congr (same : q.run = r.run) (only : r.FailsOnly errors) : q.FailsOnly errors :=
  fun e failed => only e (same.symm.trans failed)

theorem FailsOnly.bind (first : q.FailsOnly errors) (rest : ∀ a, q.run = .ok a → (next a).FailsOnly errors) :
    (q >>= next).FailsOnly errors := by
  intro e failed
  cases h : (show Except Error α from q.run) with
  | ok a => exact rest a h e ((run_bind_ok h).symm.trans failed)
  | error e' =>
    cases (run_bind_error h).symm.trans failed
    exact first e h

theorem failsOnly_pure (a : α) : (pure a : Query Id α).FailsOnly errors := .of_ok rfl

end Query

/-- Why there is no optimum: pivots ran out, there is no point, or there are arbitrarily good ones. -/
theorem LinearProgram.Maximizes.error_cases {p : LinearProgram} {n : ℕ} {zero nonneg : List AffineForm}
    {terms : List (ℕ × ℚ)} (h : p.Maximizes n zero nonneg terms) {maxPivots : ℕ} {e : Error}
    (failed : (Simplex.solve maxPivots p).optimumOf p = .error e) :
    e = .unsolved .undecided ∨ (e = .unsolved .inconsistent ∧ ∀ x, ¬p.Feasible x) ∨
      e = .unsolved .unbounded ∧ ∀ bound, ∃ x, p.Feasible x ∧ bound < sumTerms terms x := by
  by_cases undecided : (Simplex.solve maxPivots p).status = .undecided
  · cases (Solution.optimumOf_of_status undecided (by decide) p).symm.trans failed
    exact .inl rfl
  · cases h.outcome undecided with
    | optimal optimal _ => cases optimal.accepted.symm.trans failed
    | inconsistent failed' none =>
      cases failed'.symm.trans failed
      exact .inr (.inl ⟨rfl, none⟩)
    | unbounded failed' beyond =>
      cases failed'.symm.trans failed
      exact .inr (.inr ⟨rfl, beyond⟩)

variable {σ : Type} [State σ] {limits : Limits} {maxPivots : ℕ} {e : Error}

/-! ## Programs -/

/-- A round is bounded, and one without a point is an answer. -/
theorem ConeStrip.Run.eq_undecided {states : SortedSet σ} {target : Option (Gamble σ)}
    {active : List (Cone σ)}
    {r : Except Error (Option (Witness σ))} (run : Run (Simplex.solve maxPivots) states target active r)
    (failed : r = .error e) : e = .unsolved .undecided := by
  induction run with
  | empty | inconsistent | done => cases failed
  | @failed active _ _ other solved =>
    cases failed
    rcases (program_maximizes active states target).error_cases solved with
      undecided | ⟨inconsistent, -⟩ | ⟨-, beyond⟩
    · exact undecided
    · exact absurd inconsistent other
    · obtain ⟨bound, le⟩ := activations_bounded active states target
      obtain ⟨x, feasible, better⟩ := beyond bound
      exact absurd better (not_lt.2 (le x feasible))
  | next _ _ _ _ ih => exact ih failed

theorem ConeStrip.strip_failsOnly (states : SortedSet σ) (target : Option (Gamble σ))
    (active : List (Cone σ)) :
    (strip (m := Id) (Simplex.solve maxPivots) states target active).FailsOnly [.unsolved .undecided] :=
  fun _ failed => List.mem_singleton.2 ((run_strip _ states target active).eq_undecided failed)

/-- A round has a point and is bounded. -/
theorem PartialLoss.Run.eq_undecided {space : SortedSet σ} {states : List σ} {active : List (Cone σ)}
    {r : Except Error Bool} (run : Run (Simplex.solve maxPivots) space states active r)
    (sub : states.Sublist space.toList) (failed : r = .error e) : e = .unsolved .undecided := by
  induction run with
  | empty | none | all => cases failed
  | @failed states active _ some_left solved =>
    cases failed
    have some_cone := some_cone_of_left some_left
    rcases (program_maximizes space (.inr some_cone)).error_cases solved with
      undecided | ⟨-, none⟩ | ⟨-, beyond⟩
    · exact undecided
    · exact absurd ((round_feasible_iff sub some_cone).2 (roundPoint_zero space states active)) (none _)
    · obtain ⟨bound, le⟩ := count_bounded sub some_cone
      obtain ⟨x, feasible, better⟩ := beyond bound
      exact absurd better (not_lt.2 (le x feasible))
  | next _ _ _ _ _ ih => exact ih ((losingStates_sublist _ _ _).trans sub) failed

theorem PartialLoss.avoids_failsOnly {space : SortedSet σ} {states : List σ}
    (sub : states.Sublist space.toList) (active : List (Cone σ)) :
    (avoids (m := Id) (Simplex.solve maxPivots) space states active).FailsOnly [.unsolved .undecided] :=
  fun _ failed => List.mem_singleton.2 ((run_avoids _ space states active).eq_undecided sub failed)

namespace DesirabilitySet

/-- There is nothing to maximize, so the program is not unbounded. -/
theorem avoidsSureLoss_failsOnly (D : DesirabilitySet σ) :
    (D.avoidsSureLoss (m := Id) (Simplex.solve maxPivots)).FailsOnly [.unsolved .undecided] := by
  cases assessed : D.cones.isEmpty with
  | true =>
    rw [avoidsSureLoss, if_pos assessed]
    exact Query.failsOnly_pure true
  | false =>
    by_cases undecided : (Simplex.solve maxPivots D.sureLossProgram).status = .undecided
    · exact .of_error (run_avoidsSureLoss_of_undecided assessed undecided) List.mem_cons_self
    · obtain ⟨b, answer, -⟩ := exists_avoidsSureLoss_of_decided assessed undecided
      exact .of_ok answer

/-- There is a price, so the program has a point. -/
theorem lowerExpectation_failsOnly (D : DesirabilitySet σ) (f : Gamble σ) :
    ((Reasoner.within limits).lowerExpectation D f).FailsOnly
      (if D.cones.isEmpty then [.emptyDesirabilitySet]
        else [.unsolved .unbounded, .unsolved .undecided]) := by
  cases assessed : D.cones.isEmpty with
  | true =>
    rw [Reasoner.lowerExpectation, lowerExpectation, if_pos assessed]
    exact .of_error rfl List.mem_cons_self
  | false =>
    by_cases undecided : (Simplex.solve limits.maxPivots (D.priceProgram f)).status = .undecided
    · have failed := Solution.optimumOf_of_status undecided (by decide) (D.priceProgram f)
      exact .of_error (run_lowerExpectation_error assessed failed) (List.mem_cons_of_mem _ List.mem_cons_self)
    · cases priceOutcome_of_decided assessed undecided with
      | greatest _ answer => exact .of_ok answer
      | none never _ =>
        obtain ⟨c, price⟩ := D.exists_isPrice f
        exact absurd price (never c)
      | unbounded _ answer => exact .of_error answer List.mem_cons_self

end DesirabilitySet

/-! ## Conversions -/

theorem DesirabilitySet.toCredalSet_failsOnly (D : DesirabilitySet σ) :
    ((Reasoner.within limits).toCredalSet D).FailsOnly
      (if D.cones.isEmpty then [.emptyDesirabilitySet] else [.enumerationLimit limits.maxRays]) := by
  cases assessed : D.cones.isEmpty with
  | true =>
    have space : (Query.ofExcept (m := Id) D.possibilitySpace).run = .error .emptyDesirabilitySet := by
      show D.possibilitySpace = _
      rw [possibilitySpace, if_pos assessed]
    exact .of_error (Query.run_bind_error space) List.mem_cons_self
  | false =>
    rcases exists_toCredalSet_or_limit assessed with ⟨K, run, -⟩ | failed
    · exact .of_ok run
    · exact .of_error failed List.mem_cons_self

namespace CredalSet

theorem toDesirabilitySetOn_failsOnly (K : CredalSet σ) (space : SortedSet σ) :
    ((Reasoner.within limits).toDesirabilitySetOn K space).FailsOnly
      (if (space ∪ K.domain).isEmpty then [.emptyCredalSet] else [.enumerationLimit limits.maxRays]) := by
  cases states : (space ∪ K.domain).isEmpty with
  | true =>
    have failed : ((Reasoner.within limits).toDesirabilitySetOn K space).run = .error .emptyCredalSet := by
      rw [Reasoner.toDesirabilitySetOn, toDesirabilitySetOn, states]
      rfl
    exact .of_error failed List.mem_cons_self
  | false =>
    rcases exists_toDesirabilitySetOn_or_limit states with ⟨D, run, -⟩ | failed
    · exact .of_ok run
    · exact .of_error failed List.mem_cons_self

theorem toDesirabilitySet_failsOnly (K : CredalSet σ) :
    ((Reasoner.within limits).toDesirabilitySet K).FailsOnly
      (if K.members.isEmpty then [.emptyCredalSet] else [.enumerationLimit limits.maxRays]) := by
  cases none : K.members.isEmpty with
  | true =>
    have space : (Query.ofExcept (m := Id) K.possibilitySpace).run = .error .emptyCredalSet := by
      show K.possibilitySpace = _
      rw [possibilitySpace, if_pos none]
    exact .of_error (Query.run_bind_error space) List.mem_cons_self
  | false =>
    have space : (Query.ofExcept (m := Id) K.possibilitySpace).run = .ok K.domain := by
      show K.possibilitySpace = _
      rw [possibilitySpace, none, if_neg Bool.false_ne_true]
    have states : (K.domain ∪ K.domain).isEmpty = false := by
      obtain ⟨x, hx⟩ := SortedSet.isEmpty_eq_false_iff.1 (exists_mem_domain none)
      exact SortedSet.isEmpty_eq_false_iff.2 ⟨x, SortedSet.mem_union.2 (.inl hx)⟩
    have only : ((Reasoner.within limits).toDesirabilitySetOn K K.domain).FailsOnly _ :=
      toDesirabilitySetOn_failsOnly K K.domain
    rw [states] at only
    exact .congr (Query.run_bind_ok space) only

theorem discardRedundant_failsOnly (K : CredalSet σ) :
    ((Reasoner.within limits).discardRedundant K).FailsOnly [.enumerationLimit limits.maxRays] := by
  cases none : K.members.isEmpty with
  | true =>
    rw [Reasoner.discardRedundant, discardRedundant, if_pos none]
    exact Query.failsOnly_pure (K, 0)
  | false =>
    rcases run_discardRedundant_or_limit none with ⟨g, -, ps, -, run⟩ | failed
    · exact .of_ok run
    · exact .of_error failed List.mem_cons_self

end CredalSet

/-! ## All queries -/

namespace Reasoner

/-- The failures of each query, by whether there is anything to ask about. -/
structure FailsAsDocumented (r : Reasoner Id) (maxRays : ℕ) : Prop where
  avoidsSureLoss {σ : Type} [State σ] (D : DesirabilitySet σ) :
    (r.avoidsSureLoss D).FailsOnly [.unsolved .undecided]
  avoidsPartialLoss {σ : Type} [State σ] (D : DesirabilitySet σ) :
    (r.avoidsPartialLoss D).FailsOnly [.unsolved .undecided]
  feasible {σ : Type} [State σ] (cones : List (Cone σ)) (target : Option (Gamble σ)) :
    (r.feasible cones target).FailsOnly [.unsolved .undecided]
  isDesirable {σ : Type} [State σ] (D : DesirabilitySet σ) (f : Gamble σ) :
    (r.isDesirable D f).FailsOnly [.unsolved .undecided]
  lowerExpectation {σ : Type} [State σ] (D : DesirabilitySet σ) (f : Gamble σ) :
    (r.lowerExpectation D f).FailsOnly
    (if D.cones.isEmpty then [.emptyDesirabilitySet] else [.unsolved .unbounded, .unsolved .undecided])
  upperExpectation {σ : Type} [State σ] (D : DesirabilitySet σ) (f : Gamble σ) :
    (r.upperExpectation D f).FailsOnly
    (if D.cones.isEmpty then [.emptyDesirabilitySet] else [.unsolved .unbounded, .unsolved .undecided])
  toCredalSet {σ : Type} [State σ] (D : DesirabilitySet σ) : (r.toCredalSet D).FailsOnly
    (if D.cones.isEmpty then [.emptyDesirabilitySet] else [.enumerationLimit maxRays])
  toDesirabilitySet {σ : Type} [State σ] (K : CredalSet σ) : (r.toDesirabilitySet K).FailsOnly
    (if K.members.isEmpty then [.emptyCredalSet] else [.enumerationLimit maxRays])
  toDesirabilitySetOn {σ : Type} [State σ] (K : CredalSet σ) (space : SortedSet σ) :
    (r.toDesirabilitySetOn K space).FailsOnly
      (if (space ∪ K.domain).isEmpty then [.emptyCredalSet] else [.enumerationLimit maxRays])
  discardRedundant {σ : Type} [State σ] (K : CredalSet σ) :
    (r.discardRedundant K).FailsOnly [.enumerationLimit maxRays]

/-- Within any limits a query has an answer, or fails since the limits are reached, since there
are no assessments or members to ask about, or since an expectation is unbounded. -/
theorem within_failsAsDocumented (limits : Limits) : (within limits).FailsAsDocumented limits.maxRays where
  avoidsSureLoss := DesirabilitySet.avoidsSureLoss_failsOnly
  avoidsPartialLoss D := PartialLoss.avoids_failsOnly (.refl _) D.cones.toList
  feasible _ target := ConeStrip.strip_failsOnly _ target _
  isDesirable _ _ := (ConeStrip.strip_failsOnly _ _ _).bind fun w _ => Query.failsOnly_pure w.isSome
  lowerExpectation := DesirabilitySet.lowerExpectation_failsOnly
  upperExpectation D f :=
    (DesirabilitySet.lowerExpectation_failsOnly D (-f)).bind fun v _ => Query.failsOnly_pure (-v)
  toCredalSet := DesirabilitySet.toCredalSet_failsOnly
  toDesirabilitySet := CredalSet.toDesirabilitySet_failsOnly
  toDesirabilitySetOn := CredalSet.toDesirabilitySetOn_failsOnly
  discardRedundant := CredalSet.discardRedundant_failsOnly

end Reasoner

end Prevision
