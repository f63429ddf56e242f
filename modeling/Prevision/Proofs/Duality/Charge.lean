import Prevision.Proofs.Duality.Agreement
import Prevision.Proofs.Duality.Alternative
import Prevision.Proofs.Duality.Support

/-!
# Losses of the desirable gambles of a credal set

The desirable gambles of a credal set are assessed one by one
(`CredalSet.size_rays_of_toDesirabilitySetOn`). So they incur sure loss only if
there are no members, and avoid partial loss exactly if each of the states has a
probability under some member (`CredalSet.exists_not_loses_iff_of_states`). The
states of the members always have one, so without more states partial loss is
avoided (`CredalSet.toDesirabilitySet_avoidsPartialLoss`).
-/

namespace Prevision

variable {σ : Type} [State σ] {K : CredalSet σ} {D D' : DesirabilitySet σ} {space : SortedSet σ}
    {limits : Limits}

/-! ## Single gambles -/

namespace DesirabilitySet

/-- Each gamble that is added makes a cone of one ray. -/
theorem size_rays_of_foldlM {fs : List (Gamble σ)} (done : fs.foldlM insertGamble D = .ok D')
    (single : ∀ C ∈ D.cones, C.rays.size = 1) : ∀ C ∈ D'.cones, C.rays.size = 1 := by
  induction fs generalizing D with
  | nil =>
    cases done
    exact single
  | cons f fs ih =>
    rw [List.foldlM_cons, insertGamble] at done
    cases direction : Ray.ofGamble f with
    | error e =>
      rw [direction] at done
      cases done
    | ok r =>
      rw [direction] at done
      refine ih done fun C hC => ?_
      rcases mem_cones_insert.1 hC with old | ⟨rfl, -⟩
      · exact single C old
      · rfl

theorem size_rays_of_ofGambles {fs : List (Gamble σ)} (done : ofGambles fs = .ok D) :
    ∀ C ∈ D.cones, C.rays.size = 1 :=
  size_rays_of_foldlM done fun _ hC => absurd hC SortedSet.not_mem_empty

end DesirabilitySet

namespace CredalSet

theorem size_rays_of_toDesirabilitySetOn (some_state : (space ∪ K.domain).isEmpty = false) {r : Reasoner Id}
    (run : (r.toDesirabilitySetOn K space).run = .ok D) : ∀ C ∈ D.cones, C.rays.size = 1 := by
  rw [toDesirabilitySetOn_eq_bind some_state] at run
  obtain ⟨d, -, made⟩ := Query.exists_run_of_bind run
  exact DesirabilitySet.size_rays_of_ofGambles made

/-! ## States with a probability -/

/-- Of gambles assessed one by one, no selection loses exactly if every state has a probability
under some member. -/
theorem Represents.not_loses_iff (represents : K.Represents D) (single : ∀ C ∈ D.cones, C.rays.size = 1) :
    (¬∃ s : Selection D.cones.toList, s.Loses) ↔ ∀ x ∈ D.domain, x ∈ K.domain :=
  ⟨fun never _ inside => not_not.1 fun uncharged => never (represents.exists_loses single inside uncharged),
    represents.not_loses⟩

/-- There are members if all states have a probability, and the states of the members do have one. -/
theorem forall_mem_domain_iff (states : K.members.isEmpty = false ∨ space.isEmpty = false) :
    (∀ x ∈ space ∪ K.domain, x ∈ K.domain) ↔
      K.members.isEmpty = false ∧ ∀ x ∈ space, ∃ p ∈ K.members, x ∈ p.domain := by
  constructor
  · intro charged
    obtain ⟨x, hx⟩ := SortedSet.isEmpty_eq_false_iff.1 (states_of_or states)
    obtain ⟨p, hp, -⟩ := mem_domain.1 (charged x hx)
    refine ⟨SortedSet.isEmpty_eq_false_iff.2 ⟨p, hp⟩, fun y hy => ?_⟩
    exact mem_domain.1 (charged y (SortedSet.mem_union.2 (.inl hy)))
  · rintro ⟨-, charged⟩ x hx
    rcases SortedSet.mem_union.1 hx with given | member
    · exact mem_domain.2 (charged x given)
    · exact member

/-! ## Losses -/

/-- Of the desirable gambles of a credal set no selection loses exactly if there are members and
each of the given states has a probability under one. -/
theorem exists_not_loses_iff_of_states (states : K.members.isEmpty = false ∨ space.isEmpty = false)
    (conversion : ((Reasoner.within limits).toDesirabilitySetOn K space).hitsLimit = false) :
    ∃ D : DesirabilitySet σ, ((Reasoner.within limits).toDesirabilitySetOn K space).run = .ok D ∧
      D.cones.isEmpty = false ∧ D.possibilitySpace = .ok (space ∪ K.domain) ∧ K.Represents D ∧
      ((¬∃ s : Selection D.cones.toList, s.Loses) ↔
        K.members.isEmpty = false ∧ ∀ x ∈ space, ∃ p ∈ K.members, x ∈ p.domain) := by
  obtain ⟨D, run, assessed, domain, represents⟩ := exists_represents_of_states states conversion
  refine ⟨D, run, assessed, (D.possibilitySpace_eq assessed).trans (congrArg Except.ok domain),
    represents, ?_⟩
  rw [represents.not_loses_iff (size_rays_of_toDesirabilitySetOn (states_of_or states) run), domain,
    forall_mem_domain_iff states]

/-- The desirable gambles of a credal set over the states of its members avoid partial loss. -/
theorem toDesirabilitySet_avoidsPartialLoss (some_member : K.members.isEmpty = false)
    (conversion : ((Reasoner.within limits).toDesirabilitySet K).hitsLimit = false) :
    ∃ D : DesirabilitySet σ, ((Reasoner.within limits).toDesirabilitySet K).run = .ok D ∧
      (((Reasoner.within limits).avoidsPartialLoss D).hitsLimit = false →
        ((Reasoner.within limits).avoidsPartialLoss D).run = .ok true) := by
  have space : (Query.ofExcept (m := Id) K.possibilitySpace).run = .ok K.domain := by
    show K.possibilitySpace = _
    rw [possibilitySpace, some_member, if_neg Bool.false_ne_true]
  have same : ((Reasoner.within limits).toDesirabilitySet K).run =
      ((Reasoner.within limits).toDesirabilitySetOn K K.domain).run := Query.run_bind_ok space
  rw [Query.hitsLimit_congr same] at conversion
  obtain ⟨D, run, -, -, -, none⟩ := exists_not_loses_iff_of_states (.inl some_member) conversion
  refine ⟨D, same.trans run, fun fits => ?_⟩
  obtain ⟨b, answer, avoids⟩ := DesirabilitySet.exists_avoidsPartialLoss_of_fits fits
  have charged : b = true := avoids.2 (none.2 ⟨some_member, fun x hx => mem_domain.1 hx⟩)
  rwa [charged] at answer

/-- The desirable gambles of a credal set are on the given states and those of the members. They
avoid sure loss exactly if there are members, and partial loss exactly if moreover each of the
given states has a probability under some member. -/
theorem toDesirabilitySetOn_avoids (states : K.members.isEmpty = false ∨ space.isEmpty = false)
    (conversion : ((Reasoner.within limits).toDesirabilitySetOn K space).hitsLimit = false) :
    (∃ D : DesirabilitySet σ, ((Reasoner.within limits).toDesirabilitySetOn K space).run = .ok D ∧
      D.possibilitySpace = .ok (space ∪ K.domain) ∧
      (((Reasoner.within limits).avoidsSureLoss D).hitsLimit = false →
        ∃ b, ((Reasoner.within limits).avoidsSureLoss D).run = .ok b ∧
          (b = true ↔ K.members.isEmpty = false)) ∧
      (((Reasoner.within limits).avoidsPartialLoss D).hitsLimit = false →
        ∃ b, ((Reasoner.within limits).avoidsPartialLoss D).run = .ok b ∧
          (b = true ↔ K.members.isEmpty = false ∧ ∀ x ∈ space, ∃ p ∈ K.members, x ∈ p.domain))) ∧
    (K.members.isEmpty = false → ((Reasoner.within limits).toDesirabilitySet K).hitsLimit = false →
      ∃ D : DesirabilitySet σ, ((Reasoner.within limits).toDesirabilitySet K).run = .ok D ∧
        (((Reasoner.within limits).avoidsPartialLoss D).hitsLimit = false →
          ((Reasoner.within limits).avoidsPartialLoss D).run = .ok true)) := by
  obtain ⟨D, run, assessed, space, represents, none⟩ := exists_not_loses_iff_of_states states conversion
  refine ⟨⟨D, run, space, fun fits => ?_, fun fits => ?_⟩, toDesirabilitySet_avoidsPartialLoss⟩
  · obtain ⟨b, answer, loss⟩ := DesirabilitySet.exists_avoidsSureLoss assessed fits
    refine ⟨b, answer, ?_⟩
    rw [← Bool.not_eq_false, loss, ← represents.isEmpty_iff, Bool.not_eq_true]
  · obtain ⟨b, answer, avoids⟩ := DesirabilitySet.exists_avoidsPartialLoss_of_fits fits
    exact ⟨b, answer, avoids.trans none⟩

/-- One certain outcome. -/
def settled : CredalSet Int := .ofList [.dirac 0]

/-- With one more state, which has no probability, partial loss is not avoided. -/
theorem toDesirabilitySetOn_avoids_settled :
    (settled.members.isEmpty = false ∨ (SortedSet.singleton (1 : Int)).isEmpty = false) ∧
    (Reasoner.exact.toDesirabilitySetOn settled (.singleton 1)).hitsLimit = false ∧
    (∃ D : DesirabilitySet Int, (Reasoner.exact.toDesirabilitySetOn settled (.singleton 1)).run = .ok D ∧
      D.possibilitySpace = .ok (.singleton 1 ∪ settled.domain) ∧
      (Reasoner.exact.avoidsSureLoss D).run = .ok true ∧
      ((Reasoner.exact.avoidsPartialLoss D).hitsLimit = false →
        (Reasoner.exact.avoidsPartialLoss D).run = .ok false)) ∧
    ∃ D : DesirabilitySet Int, (Reasoner.exact.toDesirabilitySet settled).run = .ok D ∧
      (Reasoner.exact.avoidsPartialLoss D).run = .ok true := by
  have some_member : settled.members.isEmpty = false := by decide +kernel
  have conversion :
      (Reasoner.exact.toDesirabilitySetOn settled (.singleton 1)).hitsLimit = false := by decide +kernel
  have solved : (Reasoner.exact.toDesirabilitySetOn settled (.singleton 1) >>= fun D =>
      Reasoner.exact.avoidsSureLoss D).hitsLimit = false := by decide +kernel
  have own : (Reasoner.exact.toDesirabilitySet settled >>= fun D =>
      Reasoner.exact.avoidsPartialLoss D).hitsLimit = false := by decide +kernel
  have uncharged : ∀ p ∈ settled.members.toList, p.domain.contains 1 = false := by decide +kernel
  obtain ⟨⟨D, run, space, sureLoss, partialLoss⟩, avoided⟩ :=
    toDesirabilitySetOn_avoids (.inl some_member) conversion
  obtain ⟨b, answer, members⟩ := sureLoss (Query.hitsLimit_of_bind_ok solved run)
  obtain ⟨D', run', avoids⟩ := avoided some_member (Query.hitsLimit_of_bind own)
  rw [members.2 some_member] at answer
  refine ⟨.inl some_member, conversion, ⟨D, run, space, answer, fun fits => ?_⟩, D', run',
    avoids (Query.hitsLimit_of_bind_ok own run')⟩
  obtain ⟨c, answer', charged⟩ := partialLoss fits
  have loses : c = false := Bool.eq_false_iff.2 fun yes => by
    obtain ⟨p, hp, inside⟩ := (charged.1 yes).2 1 (List.mem_singleton_self 1)
    exact Bool.false_ne_true ((uncharged p hp).symm.trans (SortedSet.contains_iff.2 inside))
  rwa [loses] at answer'

end CredalSet

end Prevision
