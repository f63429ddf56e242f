import Prevision.Proofs.Duality.Envelope
import Prevision.Proofs.Inference.Desirability
import Prevision.Proofs.Inference.Losses
import Prevision.Proofs.Polyhedron.Dropping

/-!
# Larger limits

A limit on pivots or rays decides whether a question is answered, and not how.
No pivot and no ray depends on a limit: a run of pivots that ends within its
budget ends alike within a larger one, and so does an enumeration
(`Enumeration.addAll_eq_of_le`).

One query settles another if the other gives the same result whenever the first
stays within its limits (`Query.Settles`). Queries in sequence settle each other
part by part (`Query.Settles.bind`), and so every query of a reasoner within
some limits settles the one within larger limits (`Reasoner.within_settles`).
-/

namespace Prevision

/-! ## Enumerations -/

namespace Enumeration

variable {maxRays moreRays dimension : ℕ} {cs : List (Row × Bool)} {e e' : Enumeration} {g : Generators}

/-- An enumeration that never has too many rays alive is the same with more allowed. The induction
is on the constraints that are left. -/
theorem addAll_eq_of_le (done : addAll maxRays dimension cs e = .ok e') (le : maxRays ≤ moreRays) :
    addAll moreRays dimension cs e = .ok e' := by
  induction cs generalizing e with
  | nil => exact done
  | cons c cs ih =>
    rw [addAll] at done ⊢
    split at done
    · cases done
    · rename_i few
      rw [if_neg fun many => few (le.trans_lt many)]
      exact ih done

theorem generators_eq_of_le (found : generators maxRays dimension cs = .ok g) (le : maxRays ≤ moreRays) :
    generators moreRays dimension cs = .ok g := by
  rw [generators] at found ⊢
  cases done : addAll maxRays dimension cs (start dimension) with
  | error error =>
    rw [done] at found
    cases found
  | ok e =>
    rw [done] at found
    rw [addAll_eq_of_le done le]
    exact found

end Enumeration

/-! ## Queries -/

namespace Query

variable {α β : Type} {q r : Query Id α} {next next' : α → Query Id β}

/-- The other query gives the same result, unless this one fails for want of pivots or rays. -/
def Settles (q r : Query Id α) : Prop := q.hitsLimit = false → r.run = q.run

theorem Settles.refl (q : Query Id α) : q.Settles q := fun _ => rfl

theorem Settles.bind (first : q.Settles r) (rest : ∀ a, (next a).Settles (next' a)) :
    (q >>= next).Settles (r >>= next') := fun fits => by
  have same := first (hitsLimit_of_bind fits)
  cases answer : (show Except Error α from q.run) with
  | ok a =>
    rw [run_bind_ok answer, run_bind_ok (same.trans answer)]
    exact rest a (hitsLimit_of_bind_ok fits answer)
  | error e => rw [run_bind_error answer, run_bind_error (same.trans answer)]

theorem Settles.bind_left (first : q.Settles r) (next : α → Query Id β) : (q >>= next).Settles (r >>= next) :=
  first.bind fun a => .refl (next a)

variable {maxPivots morePivots maxRays moreRays : ℕ}

theorem Settles.ofExcept_bind {x y : Except Error α} (first : Settles (ofExcept x) (ofExcept y))
    (rest : α → Except Error β) : Settles (ofExcept (x >>= rest)) (ofExcept (y >>= rest)) := by
  have parts (z : Except Error α) :
      (ofExcept (z >>= rest) : Query Id β) = ofExcept z >>= fun a => ofExcept (rest a) := by
    cases z <;> rfl
  rw [parts, parts]
  exact first.bind_left _

/-! ## Programs and descriptions -/

theorem settles_optimum (le : maxPivots ≤ morePivots) (p : LinearProgram) :
    Settles (optimum (Simplex.solve maxPivots) p) (optimum (Simplex.solve morePivots) p) :=
  fun fits => congrArg (Solution.optimumOf · p) (Simplex.solve_eq_of_le (decided_of_fits fits) le)

theorem settles_generators (le : maxRays ≤ moreRays) (dimension : ℕ) (cs : List (Row × Bool)) :
    Settles (ofExcept (Enumeration.generators maxRays dimension cs))
      (ofExcept (Enumeration.generators moreRays dimension cs)) := fun fits => by
  show Enumeration.generators moreRays dimension cs = Enumeration.generators maxRays dimension cs
  cases found : Enumeration.generators maxRays dimension cs with
  | ok g => exact Enumeration.generators_eq_of_le found le
  | error error =>
    have limited := not_isLimit fits found
    rw [Enumeration.generators_error found] at limited
    cases limited

theorem settles_convert (le : maxRays ≤ moreRays) (d : Description) :
    Settles (ExceptT.mk (DoubleDescription.convert maxRays d))
      (ExceptT.mk (DoubleDescription.convert moreRays d)) := by
  cases sound : d.fault? with
  | some fault =>
    simp only [DoubleDescription.convert, sound]
    exact .refl _
  | none =>
    simp only [DoubleDescription.convert, sound, DoubleDescription.convertSound]
    exact (settles_generators le d.width (DoubleDescription.constraints d)).ofExcept_bind _

theorem settles_redundantRows (le : maxRays ≤ moreRays) (d : Description) :
    Settles (ExceptT.mk (DoubleDescription.redundantRows maxRays d))
      (ExceptT.mk (DoubleDescription.redundantRows moreRays d)) := by
  cases sound : d.fault? with
  | some fault =>
    simp only [DoubleDescription.redundantRows, sound]
    exact .refl _
  | none =>
    simp only [DoubleDescription.redundantRows, sound]
    exact (settles_generators le d.width (DoubleDescription.constraints d)).ofExcept_bind _

end Query

/-! ## Reasoners -/

namespace Reasoner

variable {σ : Type} [State σ] {limits more : Limits}

/-- Every query of the first reasoner settles that of the second. -/
structure Settles (r s : Reasoner Id) : Prop where
  avoidsSureLoss {σ : Type} [State σ] (D : DesirabilitySet σ) :
    (r.avoidsSureLoss D).Settles (s.avoidsSureLoss D)
  avoidsPartialLoss {σ : Type} [State σ] (D : DesirabilitySet σ) :
    (r.avoidsPartialLoss D).Settles (s.avoidsPartialLoss D)
  lowerExpectation {σ : Type} [State σ] (D : DesirabilitySet σ) (f : Gamble σ) :
    (r.lowerExpectation D f).Settles (s.lowerExpectation D f)
  upperExpectation {σ : Type} [State σ] (D : DesirabilitySet σ) (f : Gamble σ) :
    (r.upperExpectation D f).Settles (s.upperExpectation D f)
  feasible {σ : Type} [State σ] (cones : List (Cone σ)) (target : Option (Gamble σ)) :
    (r.feasible cones target).Settles (s.feasible cones target)
  isDesirable {σ : Type} [State σ] (D : DesirabilitySet σ) (f : Gamble σ) :
    (r.isDesirable D f).Settles (s.isDesirable D f)
  toCredalSet {σ : Type} [State σ] (D : DesirabilitySet σ) : (r.toCredalSet D).Settles (s.toCredalSet D)
  toDesirabilitySet {σ : Type} [State σ] (K : CredalSet σ) :
    (r.toDesirabilitySet K).Settles (s.toDesirabilitySet K)
  toDesirabilitySetOn {σ : Type} [State σ] (K : CredalSet σ) (space : SortedSet σ) :
    (r.toDesirabilitySetOn K space).Settles (s.toDesirabilitySetOn K space)
  discardRedundant {σ : Type} [State σ] (K : CredalSet σ) :
    (r.discardRedundant K).Settles (s.discardRedundant K)

theorem settles_avoidsSureLoss (pivots : limits.maxPivots ≤ more.maxPivots) (D : DesirabilitySet σ) :
    ((within limits).avoidsSureLoss D).Settles ((within more).avoidsSureLoss D) := by
  cases assessed : D.cones.isEmpty with
  | true =>
    simp only [avoidsSureLoss, DesirabilitySet.avoidsSureLoss, assessed, if_true]
    exact .refl _
  | false =>
    intro fits
    have run (n : ℕ) := DesirabilitySet.run_avoidsSureLoss assessed (Simplex.solve n)
    have decided : (Simplex.solve limits.maxPivots D.sureLossProgram).status ≠ .undecided :=
      fun undecided => by
      cases Query.not_isLimit fits (DesirabilitySet.run_avoidsSureLoss_of_undecided assessed undecided)
    refine (run more.maxPivots).trans (Eq.trans ?_ (run limits.maxPivots).symm)
    rw [Simplex.solve_eq_of_le decided pivots]

theorem settles_lowerExpectation (pivots : limits.maxPivots ≤ more.maxPivots) (D : DesirabilitySet σ)
    (f : Gamble σ) :
    ((within limits).lowerExpectation D f).Settles ((within more).lowerExpectation D f) := by
  simp only [lowerExpectation, DesirabilitySet.lowerExpectation]
  split
  · exact .refl _
  · exact (Query.settles_optimum pivots _).bind_left _

theorem settles_feasible (pivots : limits.maxPivots ≤ more.maxPivots) (cones : List (Cone σ))
    (target : Option (Gamble σ)) :
    ((within limits).feasible cones target).Settles ((within more).feasible cones target) :=
  fun fits => ConeStrip.strip_eq_of_le fits pivots

theorem settles_converted (rays : limits.maxRays ≤ more.maxRays) (d : Description) (form : Form) :
    ((within limits).enumerator.converted d form).Settles ((within more).enumerator.converted d form) :=
  (Query.settles_convert rays d).bind_left _

theorem settles_toDesirabilitySetOn (rays : limits.maxRays ≤ more.maxRays) (K : CredalSet σ)
    (space : SortedSet σ) :
    ((within limits).toDesirabilitySetOn K space).Settles ((within more).toDesirabilitySetOn K space) := by
  simp only [toDesirabilitySetOn, CredalSet.toDesirabilitySetOn]
  split
  · exact .refl _
  · exact (settles_converted rays _ _).bind_left _

theorem settles_discardRedundant (rays : limits.maxRays ≤ more.maxRays) (K : CredalSet σ) :
    ((within limits).discardRedundant K).Settles ((within more).discardRedundant K) := by
  simp only [discardRedundant, CredalSet.discardRedundant]
  split
  · exact .refl _
  · exact (Query.settles_redundantRows rays _).bind_left _

/-- Larger limits leave every answer as it is, with its witnesses and weights, and every failure
but that for want of pivots or rays. -/
theorem within_settles (pivots : limits.maxPivots ≤ more.maxPivots) (rays : limits.maxRays ≤ more.maxRays) :
    (within limits).Settles (within more) where
  avoidsSureLoss := settles_avoidsSureLoss pivots
  avoidsPartialLoss _ fits := PartialLoss.avoids_eq_of_le fits pivots
  lowerExpectation := settles_lowerExpectation pivots
  upperExpectation D f := (settles_lowerExpectation pivots D (-f)).bind_left _
  feasible := settles_feasible pivots
  isDesirable D f := (settles_feasible pivots (D.conesFor f) (DesirabilitySet.targetOf f)).bind_left _
  toCredalSet D := (Query.Settles.refl (Query.ofExcept D.possibilitySpace)).bind fun _ =>
    (settles_converted rays (Duality.polar D) .generators).bind_left _
  toDesirabilitySet K := (Query.Settles.refl (Query.ofExcept K.possibilitySpace)).bind fun space =>
    settles_toDesirabilitySetOn rays K space
  toDesirabilitySetOn := settles_toDesirabilitySetOn rays
  discardRedundant := settles_discardRedundant rays

theorem within_settles_favoured :
    let few : Limits := { maxPivots := 4, maxRays := 3 }
    let usual : Limits := {}
    few.maxPivots ≤ usual.maxPivots ∧ few.maxRays ≤ usual.maxRays ∧ (within few).Settles (within usual) ∧
      (exact.lowerExpectation favoured wager).run = ((within few).lowerExpectation favoured wager).run ∧
      (exact.feasible favoured.cones.toList none).run =
        ((within few).feasible favoured.cones.toList none).run ∧
      (exact.toCredalSet favoured).run = ((within few).toCredalSet favoured).run := by
  intro few usual
  have pivots : few.maxPivots ≤ usual.maxPivots := by decide
  have rays : few.maxRays ≤ usual.maxRays := by decide
  have settles := within_settles pivots rays
  exact ⟨pivots, rays, settles, settles.lowerExpectation favoured wager (by decide +kernel),
    settles.feasible favoured.cones.toList none (by decide +kernel),
    settles.toCredalSet favoured (by decide +kernel)⟩

/-- With a pivot less there is no answer. -/
example : ((within { maxPivots := 3 }).lowerExpectation favoured wager).hitsLimit = true := by decide +kernel

end Reasoner

end Prevision
