import Mathlib.Algebra.Order.Field.Basic
import Prevision.Proofs.Model.Probabilities

/-!
# Probability mass functions of gambles

A gamble is divided by the sum of its payoffs before the signs are looked at, and a
negative sum turns them round. So what is refused is a payoff whose sign is opposite to
that of the sum, be it negative or positive (`Pmf.exists_share_neg_iff`,
`Pmf.ofGamble_cases`). A gamble without positive payoffs is proportional to a probability
mass function as much as its opposite is.
-/

namespace Prevision

variable {σ : Type} [State σ]

namespace Pmf

variable {f : Gamble σ} {p : Pmf σ}

theorem ofGamble_eq_zeroMass (zero : f.mass = 0) : ofGamble f = .error .zeroMass := by
  rw [ofGamble, MassFunction.ofGamble_eq_error zero]
  rfl

theorem ofGamble_eq_negativeMass (ne : f.mass ≠ 0) {x : σ} (negative : f.payoff x / f.mass < 0) :
    ofGamble f = .error .negativeMass := by
  obtain ⟨m, hm, mass⟩ := MassFunction.exists_ofGamble ne
  have refused : ¬m.isNonnegative = true := fun nonneg => by
    have at_x := MassFunction.isNonnegative_iff.1 nonneg x
    rw [mass, inv_mul_eq_div] at at_x
    exact negative.not_ge at_x
  rw [ofGamble, hm]
  exact dif_neg refused

/-- What is asked of a gamble, in the order of the questions, and the answers. -/
theorem ofGamble_cases (f : Gamble σ) :
    (f.mass = 0 ∧ ofGamble f = .error .zeroMass) ∨
      (f.mass ≠ 0 ∧ (∃ x, f.payoff x / f.mass < 0) ∧ ofGamble f = .error .negativeMass) ∨
      (f.mass ≠ 0 ∧ (∀ x, 0 ≤ f.payoff x / f.mass) ∧
        ∃ p, ofGamble f = .ok p ∧ ∀ x, p.probability x = f.payoff x / f.mass) := by
  by_cases zero : f.mass = 0
  · exact .inl ⟨zero, ofGamble_eq_zeroMass zero⟩
  by_cases negative : ∃ x, f.payoff x / f.mass < 0
  · obtain ⟨x, hx⟩ := negative
    exact .inr (.inl ⟨zero, ⟨x, hx⟩, ofGamble_eq_negativeMass zero hx⟩)
  · push Not at negative
    exact .inr (.inr ⟨zero, negative, exists_ofGamble_of_quotients zero negative⟩)

/-- The states with a share in the sum are those with a payoff. -/
theorem domain_eq_support (ne : f.mass ≠ 0) (shares : ∀ x, p.probability x = f.payoff x / f.mass) :
    p.domain = f.support :=
  SortedSet.ext fun x => by rw [mem_domain, shares, div_ne_zero_iff, Gamble.mem_support, and_iff_left ne]

/-! ## Signs -/

theorem exists_share_neg_iff : (∃ x, f.payoff x / f.mass < 0) ↔
    (0 < f.mass ∧ ∃ x, f.payoff x < 0) ∨ (f.mass < 0 ∧ ∃ x, 0 < f.payoff x) := by
  simp only [div_neg_iff, exists_or, exists_and_right]
  rw [or_comm, and_comm, and_comm (a := ∃ x, 0 < f.payoff x)]

theorem forall_share_nonneg_iff : (f.mass ≠ 0 ∧ ∀ x, 0 ≤ f.payoff x / f.mass) ↔
    (0 < f.mass ∧ ∀ x, 0 ≤ f.payoff x) ∨ (f.mass < 0 ∧ ∀ x, f.payoff x ≤ 0) := by
  rcases lt_trichotomy f.mass 0 with neg | zero | pos
  · rw [or_iff_right fun h => neg.not_gt h.1, and_iff_right neg.ne, and_iff_right neg]
    exact forall_congr' fun x => by rw [le_div_iff_of_neg neg, zero_mul]
  · exact iff_of_false (fun h => h.1 zero) fun h => h.elim (fun pos => pos.1.ne' zero) fun neg =>
      neg.1.ne zero
  · rw [or_iff_left fun h => pos.not_gt h.1, and_iff_right pos.ne', and_iff_right pos]
    exact forall_congr' fun x => by rw [le_div_iff₀ pos, zero_mul]

/-! ## The answers -/

/-- A gamble has no probability mass function exactly if its payoffs sum to zero, or one of them
has the sign opposite to that of the sum. Otherwise the probabilities are the shares in the sum,
on the support. -/
theorem ofGamble_answers (f : Gamble σ) :
    (ofGamble f = .error .zeroMass ↔ ∑ x ∈ f.domain.toFinset, f.payoff x = 0) ∧
    (ofGamble f = .error .negativeMass ↔
      (0 < ∑ x ∈ f.domain.toFinset, f.payoff x ∧ ∃ x, f.payoff x < 0) ∨
      (∑ x ∈ f.domain.toFinset, f.payoff x < 0 ∧ ∃ x, 0 < f.payoff x)) ∧
    ((∃ p, ofGamble f = .ok p) ↔
      (0 < ∑ x ∈ f.domain.toFinset, f.payoff x ∧ ∀ x, 0 ≤ f.payoff x) ∨
      (∑ x ∈ f.domain.toFinset, f.payoff x < 0 ∧ ∀ x, f.payoff x ≤ 0)) ∧
    ∀ p, ofGamble f = .ok p → p.domain = f.support ∧
      ∀ x, p.probability x = f.payoff x / ∑ x ∈ f.domain.toFinset, f.payoff x := by
  have sum : f.mass = ∑ x ∈ f.domain.toFinset, f.payoff x := Table.total_eq_sum fun _ hx => hx
  rw [← sum]
  rcases ofGamble_cases f with ⟨zero, answer⟩ | ⟨ne, negative, answer⟩ | ⟨ne, shares, p, answer, share⟩
  · rw [answer]
    refine ⟨iff_of_true rfl zero, iff_of_false nofun fun h => ?_, iff_of_false nofun fun h => ?_, nofun⟩
    · exact h.elim (fun pos => pos.1.ne' zero) fun neg => neg.1.ne zero
    · exact (forall_share_nonneg_iff.2 h).1 zero
  · rw [answer]
    refine ⟨iff_of_false nofun ne, iff_of_true rfl (exists_share_neg_iff.1 negative),
      iff_of_false nofun fun h => ?_, nofun⟩
    obtain ⟨x, hx⟩ := negative
    exact hx.not_ge ((forall_share_nonneg_iff.2 h).2 x)
  · rw [answer]
    refine ⟨iff_of_false nofun ne, iff_of_false nofun fun h => ?_,
      iff_of_true ⟨p, rfl⟩ (forall_share_nonneg_iff.1 ⟨ne, shares⟩), fun q same => ?_⟩
    · obtain ⟨x, hx⟩ := exists_share_neg_iff.2 h
      exact hx.not_ge (shares x)
    · cases same
      exact ⟨domain_eq_support ne share, share⟩

/-- A gamble without a positive payoff has a probability mass function. -/
theorem ofGamble_answers_losses :
    let f : Gamble Int := .ofList [(0, -1), (1, -2), (2, 0)]
    ∃ p, ofGamble f = .ok p ∧ p.domain = .ofList [0, 1] ∧ p.probability 1 = 2 / 3 := by
  intro f
  obtain ⟨-, -, found, form⟩ := ofGamble_answers f
  have negative : ∑ x ∈ f.domain.toFinset, f.payoff x < 0 := by decide +kernel
  have losses : ∀ x, f.payoff x ≤ 0 := fun x => by
    by_cases hx : x ∈ f.domain
    · exact (by decide +kernel : ∀ x ∈ f.domain, f.payoff x ≤ 0) x hx
    · exact (Table.payoff_eq_zero hx).le
  obtain ⟨p, answer⟩ := found.2 (.inr ⟨negative, losses⟩)
  obtain ⟨domain, share⟩ := form p answer
  exact ⟨p, answer, domain.trans (by decide +kernel), (share 1).trans (by decide +kernel)⟩

/-- Negative payoffs whose sum is not zero are not refused. -/
theorem ofGamble_not_negativeMass :
    let f : Gamble Int := .ofList [(0, -1), (1, -2)]
    ∑ x ∈ f.domain.toFinset, f.payoff x ≠ 0 ∧ (∃ x ∈ f.domain, f.payoff x < 0) ∧
    ofGamble f ≠ .error .negativeMass := by
  decide +kernel

end Pmf

end Prevision
