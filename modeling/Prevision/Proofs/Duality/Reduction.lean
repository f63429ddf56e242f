import Prevision.Proofs.Duality.RoundTrip

/-!
# Credal sets without redundant members

A credal set reduces another one if its members are among those of the other, and
these are mixtures of them (`CredalSet.Reduces`). What is nonnegative under the
fewer members is so under all, and an event that some member gives no probability
has none under one of the fewer either. So both have the same lower and upper
expectations, or fail for the same reason (`Reduces.lowerExpectation_eq`,
`Reduces.upperExpectation_eq`).

The members that are no mixtures of the others are such a set. They are what the
removal of redundant members leaves, which does nothing when repeated
(`CredalSet.discardRedundant_keeps_expectations`).
-/

namespace Prevision

open Duality

variable {σ : Type} [State σ] {K K' : CredalSet σ} {p : Pmf σ} {f : Gamble σ} {v : ℚ} {limits : Limits}

/-! ## Bounds for expectations -/

namespace Pmf

theorem product_one (p : Pmf σ) (event : SortedSet σ) :
    event.product (fun _ => 1) p.probability = p.chance event := by
  rw [SortedSet.product_apply]
  exact Finset.sum_congr rfl fun x _ => one_mul _

theorem le_expectation_iff (pos : 0 < p.chance f.domain) (expected : p.expectation f = .ok v) (c : ℚ) :
    c ≤ v ↔ 0 ≤ f.domain.product (fun x => f.payoff x - c) p.probability := by
  rw [expectation_eq pos, Except.ok.injEq] at expected
  rw [← expected, le_div_iff₀ pos, ← sub_nonneg, SortedSet.product_apply, chance, Finset.mul_sum,
    ← Finset.sum_sub_distrib]
  simp only [sub_mul, mul_comm (f.payoff _)]

/-- A mass function is not zero, so something generates it. -/
theorem exists_of_generated {R : Set (σ → ℚ)} (generated : Generated R ⊥ p.probability) : ∃ r, r ∈ R := by
  by_contra none
  have zero := (Submodule.mem_bot ℚ).1 (generated.mem_of_no_ray fun r hr => none ⟨r, hr⟩)
  have total := p.sum_probability (S := p.domain) fun _ hx => hx
  rw [zero] at total
  exact zero_ne_one (Finset.sum_const_zero.symm.trans total)

end Pmf

namespace CredalSet

/-! ## Fewer members with the same mixtures -/

/-- The members are among those of another credal set, and these are mixtures of them. -/
structure Reduces (K' K : CredalSet σ) : Prop where
  within : ∀ p ∈ K'.members, p ∈ K.members
  generates : ∀ p ∈ K.members, Generated K'.probabilities ⊥ p.probability

namespace Reduces

variable (reduces : K'.Reduces K)

include reduces

theorem nonneg {S : SortedSet σ} {h : σ → ℚ} (nonneg : ∀ q ∈ K'.members, 0 ≤ S.product h q.probability)
    (hp : p ∈ K.members) : 0 ≤ S.product h p.probability := by
  refine (reduces.generates p hp).nonneg_bot ?_
  rintro _ ⟨q, hq, rfl⟩
  exact nonneg q hq

theorem isEmpty_eq : K'.members.isEmpty = K.members.isEmpty := by
  rw [Bool.eq_iff_iff, SortedSet.eq_empty_iff, SortedSet.eq_empty_iff]
  constructor
  · intro none p hp
    obtain ⟨_, q, hq, rfl⟩ := Pmf.exists_of_generated (reduces.generates p hp)
    exact none q hq
  · exact fun none q hq => none q (reduces.within q hq)

/-- Of a mixture that gives an event no probability, no part gives it any. -/
theorem exists_uncharged {event : SortedSet σ} (hp : p ∈ K.members) (zero : p.chance event = 0) :
    ∃ q ∈ K'.members, q.chance event = 0 := by
  -- What gives the event no probability is a face of the cone, and only members on it take part.
  have part :=
    (reduces.generates p hp).face (f := fun _ : Unit => event.product fun _ => 1) (T := Set.univ) ?_ ?_ ?_
  · obtain ⟨_, ⟨q, hq, rfl⟩, vanish⟩ := Pmf.exists_of_generated part
    exact ⟨q, hq, (q.product_one event).symm.trans (vanish () (Set.mem_univ _))⟩
  · rintro _ - _ ⟨q, -, rfl⟩
    rw [q.product_one]
    exact q.chance_nonneg event
  · intro _ _ l hl
    rw [(Submodule.mem_bot ℚ).1 hl, map_zero]
  · intro _ _
    rw [p.product_one, zero]

theorem isLeast (charged : ∀ p ∈ K.members, 0 < p.chance f.domain)
    (least : IsLeast (K'.memberExpectations f) v) :
    IsLeast (K.memberExpectations f) v := by
  obtain ⟨⟨q, hq, expected⟩, le⟩ := least
  refine ⟨⟨q, reduces.within q hq, expected⟩, ?_⟩
  rintro w ⟨p, hp, expected⟩
  refine (Pmf.le_expectation_iff (charged p hp) expected v).2 (reduces.nonneg (fun q hq => ?_) hp)
  have pos := charged q (reduces.within q hq)
  exact (Pmf.le_expectation_iff pos (Pmf.expectation_eq pos) v).1 (le ⟨q, hq, Pmf.expectation_eq pos⟩)

theorem isGreatest (charged : ∀ p ∈ K.members, 0 < p.chance f.domain)
    (greatest : IsGreatest (K'.memberExpectations f) v) : IsGreatest (K.memberExpectations f) v := by
  rw [← f.domain_neg] at charged
  exact isLeast_memberExpectations_neg.1 (reduces.isLeast charged (isLeast_memberExpectations_neg.2 greatest))

/-- Where expectations under some members fail, they do so for the same reason under the fewer. -/
theorem expectations_cases (f : Gamble σ) :
    (∃ e, K'.expectations f = .error e ∧ K.expectations f = .error e) ∨
      K.members.isEmpty = false ∧ ∀ p ∈ K.members, 0 < p.chance f.domain := by
  cases none : K.members.isEmpty with
  | true =>
    exact .inl ⟨_, expectations_of_isEmpty (reduces.isEmpty_eq.trans none) f, expectations_of_isEmpty none f⟩
  | false =>
    by_cases uncharged : ∃ p ∈ K.members, p.chance f.domain = 0
    · obtain ⟨p, hp, zero⟩ := uncharged
      obtain ⟨q, hq, zero'⟩ := reduces.exists_uncharged hp zero
      exact .inl ⟨_, expectations_of_uncharged hq zero', expectations_of_uncharged hp zero⟩
    · exact .inr ⟨rfl, fun p hp => (p.chance_nonneg _).lt_of_ne' fun zero => uncharged ⟨p, hp, zero⟩⟩

theorem lowerExpectation_eq (f : Gamble σ) : K'.lowerExpectation f = K.lowerExpectation f := by
  rcases reduces.expectations_cases f with ⟨e, failed', failed⟩ | ⟨some_member, charged⟩
  · rw [lowerExpectation_of_error failed', lowerExpectation_of_error failed]
  · obtain ⟨v, answer, least⟩ := lowerExpectation_isLeast (reduces.isEmpty_eq.trans some_member)
      fun q hq => charged q (reduces.within q hq)
    rw [answer, (lowerExpectation_eq_ok_iff some_member).2 ⟨charged, reduces.isLeast charged least⟩]

theorem upperExpectation_eq (f : Gamble σ) : K'.upperExpectation f = K.upperExpectation f := by
  rcases reduces.expectations_cases f with ⟨e, failed', failed⟩ | ⟨some_member, charged⟩
  · rw [upperExpectation_of_error failed', upperExpectation_of_error failed]
  · obtain ⟨v, answer, greatest⟩ := upperExpectation_isGreatest (reduces.isEmpty_eq.trans some_member)
      fun q hq => charged q (reduces.within q hq)
    rw [answer, (upperExpectation_eq_ok_iff some_member).2 ⟨charged, reduces.isGreatest charged greatest⟩]

end Reduces

/-! ## The members that are no mixtures of others -/

theorem probabilities_erase (K : CredalSet σ) (p : Pmf σ) :
    (K.erase p).probabilities = K.probabilities \ {p.probability} := by
  ext q
  constructor
  · rintro ⟨q, hq, rfl⟩
    obtain ⟨mem, ne⟩ := SortedSet.mem_erase.1 hq
    exact ⟨mem_probabilities mem, fun same => ne (Pmf.probability_injective same)⟩
  · rintro ⟨⟨q, hq, rfl⟩, ne⟩
    exact mem_probabilities (SortedSet.mem_erase.2 ⟨hq, fun same => ne (same ▸ rfl)⟩)

/-- A member is an extreme point of the mixtures exactly if it is no mixture of the others. -/
theorem mem_extremePoints_iff_notMem (hp : p ∈ K.members) :
    p.probability ∈ (convexHull ℚ K.probabilities).extremePoints ℚ ↔
      p.probability ∉ convexHull ℚ (K.erase p).probabilities := by
  rw [probabilities_erase]
  exact Prevision.mem_extremePoints_iff_notMem K.probability_height K.finite_probabilities
    (mem_probabilities hp)

/-- The members that are no mixtures of others reduce a credal set. -/
theorem reduces_of_mem_iff
    (kept : ∀ p, p ∈ K'.members ↔
      p ∈ K.members ∧ p.probability ∉ convexHull ℚ (K.erase p).probabilities) :
    K'.Reduces K := by
  refine ⟨fun p hp => ((kept p).1 hp).1, fun p hp => ?_⟩
  refine (generated_extreme K.probability_height K.finite_probabilities (mem_probabilities hp)).mono ?_
  rintro _ ⟨⟨q, hq, rfl⟩, extreme⟩
  exact mem_probabilities
    ((kept q).2 ⟨hq, (mem_extremePoints_iff_notMem hq).1 ((mem_extremePoints_iff hq).2 extreme)⟩)

/-! ## The removal of the others -/

theorem size_erase (hp : p ∈ K.members) : (K.erase p).members.size + 1 = K.members.size := by
  classical
  have erased : (K.erase p).members.toFinset = K.members.toFinset.erase p := by
    ext q
    rw [SortedSet.mem_toFinset, Finset.mem_erase, SortedSet.mem_toFinset, and_comm]
    exact SortedSet.mem_erase
  have card := Finset.card_erase_add_one (s := K.members.toFinset) (a := p) hp
  rwa [← erased] at card

/-- Members that are listed once are removed one by one. -/
theorem size_foldl_erase {ps : List (Pmf σ)} (once : ps.Nodup) (within : ∀ p ∈ ps, p ∈ K.members) :
    (ps.foldl erase K).members.size + ps.length = K.members.size := by
  induction ps generalizing K with
  | nil => rfl
  | cons p ps ih =>
    obtain ⟨new, once⟩ := List.nodup_cons.1 once
    have rest := ih (K := K.erase p) once fun q hq =>
      SortedSet.mem_erase.2 ⟨within q (List.mem_cons_of_mem p hq), fun same => new (same ▸ hq)⟩
    rw [List.foldl_cons, List.length_cons, ← Nat.add_assoc, rest, size_erase (within p List.mem_cons_self)]

theorem nodup_membersAt (K : CredalSet σ) (positions : SortedSet ℕ) : (K.membersAt positions).Nodup := by
  refine List.Nodup.filterMap (fun i j p hi hj => ?_) positions.nodup
  obtain ⟨lt, at_i⟩ := List.getElem?_eq_some_iff.1 hi
  obtain ⟨lt', at_j⟩ := List.getElem?_eq_some_iff.1 hj
  exact (K.members.nodup.getElem_inj_iff).1 (at_i.trans at_j.symm)

/-- Within the limits, the members that are kept are those that are no mixtures of others, and the others are
counted. -/
theorem exists_reduced (fits : ((Reasoner.within limits).discardRedundant K).hitsLimit = false) :
    ∃ (K' : CredalSet σ) (removed : ℕ),
      ((Reasoner.within limits).discardRedundant K).run = .ok (K', removed) ∧
      (∀ p, p ∈ K'.members ↔ p ∈ K.members ∧ p.probability ∉ convexHull ℚ (K.erase p).probabilities) ∧
      K'.members.size + removed = K.members.size := by
  cases none : K.members.isEmpty with
  | true =>
    refine ⟨K, 0, ?_, fun p => ?_, rfl⟩
    · rw [Reasoner.discardRedundant, discardRedundant, if_pos none]
      rfl
    · exact iff_of_false (SortedSet.eq_empty_iff.1 none p) fun h => SortedSet.eq_empty_iff.1 none p h.1
  | false =>
    obtain ⟨g, spans, ps, listed, run⟩ := run_discardRedundant none fits
    have mem (p : Pmf σ) :
        p ∈ ps ↔ p ∈ K.members ∧ p.probability ∈ convexHull ℚ (K.erase p).probabilities := by
      rw [listed, mem_membersAt_scanRows spans]
      refine and_congr_right fun hp => ?_
      rw [mem_extremePoints_iff_notMem hp, not_not]
    refine ⟨_, _, run, fun p => ?_,
      size_foldl_erase (listed ▸ nodup_membersAt K _) fun p hp => ((mem p).1 hp).1⟩
    rw [mem_foldl_erase, mem]
    tauto

/-- Within the limits, just the members that are no mixtures of the others are kept, and the
others are counted. Of those that are kept none is removed again, and lower and upper expectations
are the same results as before. -/
theorem discardRedundant_keeps_expectations
    (fits : ((Reasoner.within limits).discardRedundant K).hitsLimit = false) :
    ∃ (K' : CredalSet σ) (removed : ℕ),
      ((Reasoner.within limits).discardRedundant K).run = .ok (K', removed) ∧
      (∀ p, p ∈ K'.members ↔ p ∈ K.members ∧ p.probability ∉ convexHull ℚ (K.erase p).probabilities) ∧
      K'.members.size + removed = K.members.size ∧
      (∀ again : Limits, ((Reasoner.within again).discardRedundant K').hitsLimit = false →
        ((Reasoner.within again).discardRedundant K').run = .ok (K', 0)) ∧
      ∀ f : Gamble σ, K'.lowerExpectation f = K.lowerExpectation f ∧
        K'.upperExpectation f = K.upperExpectation f ∧
        ((∃ p ∈ K.members, p.chance f.domain = 0) →
          K'.lowerExpectation f = .error .zeroMass ∧ K'.upperExpectation f = .error .zeroMass) ∧
        (K.members.isEmpty = true →
          K'.lowerExpectation f = .error .emptyCredalSet ∧
          K'.upperExpectation f = .error .emptyCredalSet) := by
  obtain ⟨K', removed, run, kept, count⟩ := exists_reduced fits
  have reduces := reduces_of_mem_iff kept
  refine ⟨K', removed, run, kept, count, fun again fits' => ?_, fun f => ⟨reduces.lowerExpectation_eq f,
    reduces.upperExpectation_eq f, ?_, fun none => ?_⟩⟩
  · obtain ⟨K'', removed', run', kept', count'⟩ := exists_reduced fits'
    have same : K'' = K' := eq_of_mem_iff fun p => (kept' p).trans <| and_iff_left_of_imp fun hp mixture => by
      have fewer : (K'.erase p).probabilities ⊆ (K.erase p).probabilities := by
        rintro _ ⟨q, hq, rfl⟩
        obtain ⟨mem, ne⟩ := SortedSet.mem_erase.1 hq
        exact mem_probabilities (SortedSet.mem_erase.2 ⟨((kept q).1 mem).1, ne⟩)
      exact ((kept p).1 hp).2 (convexHull_mono fewer mixture)
    rw [same] at run' count'
    rw [run', Nat.add_eq_left.1 count']
  · rintro ⟨p, hp, zero⟩
    obtain ⟨q, hq, zero'⟩ := reduces.exists_uncharged hp zero
    have failed := expectations_of_uncharged hq zero'
    exact ⟨lowerExpectation_of_error failed, upperExpectation_of_error failed⟩
  · have failed := expectations_of_isEmpty (reduces.isEmpty_eq.trans none) f
    exact ⟨lowerExpectation_of_error failed, upperExpectation_of_error failed⟩

/-- Of the mixed members two are kept, and as one of these gives the outcome zero no probability there is no
expectation conditional on it. -/
theorem discardRedundant_keeps_expectations_mixed :
    (Reasoner.exact.discardRedundant mixed).hitsLimit = false ∧
    ∃ (K' : CredalSet Int) (removed : ℕ), (Reasoner.exact.discardRedundant mixed).run = .ok (K', removed) ∧
      (∀ p, p ∈ K'.members ↔
        p ∈ mixed.members ∧ p.probability ∉ convexHull ℚ (mixed.erase p).probabilities) ∧
      K'.members.size + removed = mixed.members.size ∧
      (Reasoner.exact.discardRedundant K').run = .ok (K', 0) ∧
      K'.lowerExpectation (.indicator (.singleton 0)) = .error .zeroMass ∧
      ∀ f : Gamble Int, K'.lowerExpectation f = mixed.lowerExpectation f ∧
        K'.upperExpectation f = mixed.upperExpectation f := by
  have fits : (Reasoner.exact.discardRedundant mixed).hitsLimit = false := by decide +kernel
  have twice : (Reasoner.exact.discardRedundant mixed >>= fun kept =>
      Reasoner.exact.discardRedundant kept.1).hitsLimit = false := by decide +kernel
  have uncharged : ∃ p ∈ mixed.members, p.chance (Gamble.indicator (.singleton (0 : Int))).domain = 0 :=
    ⟨.dirac 1, by decide +kernel, by decide +kernel⟩
  obtain ⟨K', removed, run, kept, count, again, keeps⟩ := discardRedundant_keeps_expectations fits
  obtain ⟨-, -, failed, -⟩ := keeps (.indicator (.singleton 0))
  have fits' := Query.hitsLimit_of_bind_ok twice run
  exact ⟨fits, K', removed, run, kept, count, again {} fits', (failed uncharged).1, fun f =>
    ⟨(keeps f).1, (keeps f).2.1⟩⟩

end CredalSet

end Prevision
