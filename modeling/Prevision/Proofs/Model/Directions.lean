import Prevision.Proofs.Model.Payoffs

/-!
# Rays as directions

A ray stands for all positive multiples of its gamble, and no other ray does:
parallel rays are equal (`Ray.eq_of_parallel`), since their greatest absolute
payoff is one (`Ray.isGreatest_abs_payoff`). So the ray of a gamble is the one that
the gamble is parallel to (`Ray.ofGamble_eq_ok_iff`), whatever zeros it is given
with, and two gambles have one ray exactly if they are positive multiples of each
other (`Ray.ofGamble_canonical`).
-/

namespace Prevision

variable {σ : Type} [State σ]

namespace Gamble

variable {f : Gamble σ} {x : σ}

/-- The norm is the greatest absolute payoff. -/
theorem isGreatest_norm (ne : f.norm ≠ 0) : IsGreatest (Set.range fun x => |f.payoff x|) f.norm := by
  constructor
  · obtain ⟨a, ha, greatest⟩ := Row.exists_abs_eq_norm ne
    obtain ⟨x, -, rfl⟩ := mem_values.1 ha
    exact ⟨x, greatest⟩
  · rintro _ ⟨x, rfl⟩
    by_cases hx : x ∈ f.domain
    · exact Row.abs_le_norm _ (mem_values.2 ⟨x, hx, rfl⟩)
    · have none : f.payoff x = 0 := Table.payoff_eq_zero hx
      show |f.payoff x| ≤ f.norm
      rw [none, abs_zero]
      exact f.norm_nonneg

end Gamble

namespace Ray

variable {f g : Gamble σ} {r s : Ray σ}

theorem isGreatest_abs_payoff (r : Ray σ) : IsGreatest (Set.range fun x => |r.payoff x|) 1 := by
  have greatest := Gamble.isGreatest_norm (r.norm_eq_one ▸ one_ne_zero : r.gamble.norm ≠ 0)
  rwa [r.norm_eq_one] at greatest

theorem payoff_injective (same : r.payoff = s.payoff) : r = s := by
  have domain : r.gamble.domain = s.gamble.domain := SortedSet.ext fun x => by
    rw [show x ∈ r.gamble.domain ↔ _ from mem_domain, same]
    exact mem_domain.symm
  exact gamble_injective (Gamble.ext_payoff domain same)

/-- Rays that are positive multiples of each other are equal, since neither multiple can be
greater than one. -/
theorem eq_of_parallel (parallel : Parallel r.payoff s.payoff) : r = s := by
  have le_one {r s : Ray σ} {c : ℚ} (pos : 0 < c) (multiple : r.payoff = c • s.payoff) : c ≤ 1 := by
    obtain ⟨x, one⟩ := s.isGreatest_abs_payoff.1
    have at_x : |r.payoff x| = c := by
      rw [multiple, Pi.smul_apply, smul_eq_mul, abs_mul, abs_of_pos pos,
        show |s.payoff x| = 1 from one, mul_one]
    exact at_x.symm.trans_le (r.isGreatest_abs_payoff.2 ⟨x, rfl⟩)
  obtain ⟨c, pos, multiple⟩ := parallel
  have inverse : s.payoff = c⁻¹ • r.payoff := by rw [multiple, inv_smul_smul₀ pos.ne']
  have one : c = 1 := (le_one pos multiple).antisymm ((inv_le_one₀ pos).1 (le_one (inv_pos.2 pos) inverse))
  exact payoff_injective (by rw [multiple, one, one_smul])

/-- The ray of a gamble is the one that the gamble is parallel to. -/
theorem ofGamble_eq_ok_iff : ofGamble f = .ok r ↔ Parallel f.payoff r.payoff := by
  constructor
  · intro direction
    obtain ⟨s, direction', parallel⟩ := exists_parallel (payoff_ne_zero_of_ofGamble direction)
    cases direction.symm.trans direction'
    exact parallel
  · intro parallel
    obtain ⟨s, direction, parallel'⟩ := exists_parallel (mt parallel.eq_zero_iff.1 r.payoff_ne_zero)
    rw [direction, eq_of_parallel (parallel'.symm.trans parallel)]

theorem ofGamble_eq_error (zero : f.payoff = 0) : ofGamble f = .error .degenerateRay :=
  dif_pos (Gamble.norm_eq_zero_iff.2 zero)

/-- Positive multiples have one ray, or none. -/
theorem ofGamble_congr (parallel : Parallel f.payoff g.payoff) : ofGamble f = ofGamble g := by
  by_cases zero : g.payoff = 0
  · rw [ofGamble_eq_error zero, ofGamble_eq_error (parallel.eq_zero_iff.2 zero)]
  · obtain ⟨r, direction, parallel'⟩ := exists_parallel zero
    rw [direction, ofGamble_eq_ok_iff.2 (parallel.trans parallel')]

theorem ofGamble_gamble (r : Ray σ) : ofGamble r.gamble = .ok r := ofGamble_eq_ok_iff.2 (.refl _)

theorem payoff_negated (r : Ray σ) : r.negated.payoff = -r.payoff :=
  funext fun x => Gamble.payoff_neg r.gamble x

theorem negated_ne (r : Ray σ) : r.negated ≠ r := by
  intro same
  obtain ⟨x, hx⟩ := r.exists_mem_domain
  have opposite : r.payoff x = -r.payoff x :=
    (congrArg (payoff · x) same).symm.trans (congrFun r.payoff_negated x)
  exact mem_domain.1 hx (self_eq_neg.1 opposite)

theorem ofGamble_neg (direction : ofGamble f = .ok r) : ofGamble (-f) = .ok r.negated := by
  obtain ⟨c, pos, multiple⟩ := ofGamble_eq_ok_iff.1 direction
  refine ofGamble_eq_ok_iff.2 ⟨c, pos, funext fun x => ?_⟩
  rw [payoff_negated, smul_neg, ← multiple, Gamble.payoff_neg, Pi.neg_apply]

theorem mem_domain_of_ofGamble (direction : ofGamble f = .ok r) {x : σ} : x ∈ r.domain ↔ x ∈ f.support := by
  obtain ⟨c, pos, multiple⟩ := ofGamble_eq_ok_iff.1 direction
  rw [mem_domain, Gamble.mem_support, multiple, Pi.smul_apply, smul_ne_zero_iff_right pos.ne']

/-- A gamble has no ray exactly if it is zero everywhere. Rays of gambles are equal exactly if
these are positive multiples of each other. The ray of a gamble has norm one, is given on the
support of the gamble, and is its own ray; its opposite is another one, of the opposite gamble. -/
theorem ofGamble_canonical (f g : Gamble σ) :
    (ofGamble f = .error .degenerateRay ↔ ∀ x, f.payoff x = 0) ∧
    ((∃ r : Ray σ, ofGamble f = .ok r) ↔ ∃ x, f.payoff x ≠ 0) ∧
    (∀ r s : Ray σ, ofGamble f = .ok r → ofGamble g = .ok s →
      (r = s ↔ ∃ c : ℚ, 0 < c ∧ ∀ x, f.payoff x = c * g.payoff x)) ∧
    (∀ r : Ray σ, ofGamble f = .ok r →
      r.gamble.norm = 1 ∧ IsGreatest (Set.range fun x => |r.payoff x|) 1 ∧
      r.domain = r.gamble.support ∧ r.domain = f.support ∧ ofGamble r.gamble = .ok r ∧
      ofGamble (-f) = .ok r.negated ∧ r.negated ≠ r) ∧
    ∀ x : σ, ofGamble (.indicator (.singleton x)) = .ok (unit x) := by
  have zero_iff : f.payoff = 0 ↔ ∀ x, f.payoff x = 0 := funext_iff
  have direction_iff : (∃ r, ofGamble f = .ok r) ↔ f.payoff ≠ 0 :=
    ⟨fun ⟨r, direction⟩ => payoff_ne_zero_of_ofGamble direction,
      fun ne => (exists_parallel ne).imp fun _ => And.left⟩
  refine ⟨⟨fun none => zero_iff.1 (by_contra fun ne => ?_), fun zero => ofGamble_eq_error (zero_iff.2 zero)⟩,
    direction_iff.trans (zero_iff.not.trans not_forall), fun r s hr hs => ?_, fun r hr => ?_,
    fun x => ofGamble_eq_ok_iff.2 (.refl _)⟩
  · obtain ⟨r, direction⟩ := direction_iff.2 ne
    cases none.symm.trans direction
  · have hr := ofGamble_eq_ok_iff.1 hr
    have hs := ofGamble_eq_ok_iff.1 hs
    constructor
    · rintro rfl
      obtain ⟨c, pos, multiple⟩ := hr.trans hs.symm
      exact ⟨c, pos, congrFun multiple⟩
    · rintro ⟨c, pos, multiple⟩
      exact eq_of_parallel (hr.symm.trans (.trans ⟨c, pos, funext multiple⟩ hs))
  · have own (x : σ) : x ∈ r.domain ↔ x ∈ r.gamble.support := mem_domain_of_ofGamble r.ofGamble_gamble
    exact ⟨r.norm_eq_one, r.isGreatest_abs_payoff, SortedSet.ext own,
      SortedSet.ext fun x => mem_domain_of_ofGamble hr,
      r.ofGamble_gamble, ofGamble_neg hr, r.negated_ne⟩

theorem ofGamble_canonical_proportional :
    let f : Gamble Int := .ofList [(0, -3 / 50), (1, 7 / 50), (2, 9 / 5), (3, 0)]
    let g : Gamble Int := .ofList [(0, -1 / 3), (1, 7 / 9), (2, 10)]
    ∃ r : Ray Int, ofGamble f = .ok r ∧ ofGamble g = .ok r ∧
      (∃ c : ℚ, 0 < c ∧ ∀ x, f.payoff x = c * g.payoff x) ∧
      r.domain = f.support ∧ ofGamble r.gamble = .ok r ∧ ofGamble (-f) = .ok r.negated := by
  intro f g
  let r : Ray Int := ⟨.ofList [(0, -1 / 30), (1, 7 / 90), (2, 1)], by decide +kernel, by decide +kernel⟩
  have hf : ofGamble f = .ok r := by decide +kernel
  have hg : ofGamble g = .ok r := by decide +kernel
  obtain ⟨-, -, same_iff, form, -⟩ := ofGamble_canonical f g
  obtain ⟨-, -, -, domain, own, opposite, -⟩ := form r hf
  exact ⟨r, hf, hg, (same_iff r r hf hg).1 rfl, domain, own, opposite⟩

end Ray

end Prevision
