import Prevision.Proofs.Duality.Representation
import Prevision.Proofs.Program.Forms

/-!
# Weights along a list of rays

A linear program has a variable for the weight of each ray, in the order of
the rays.

* `generated_iff_weighted`, `generated_iff_row`, `DesirabilitySet.generated_iff_sum`: what rays
  generate are their weighted sums;
* `sumTerms_weighted`: the terms that take a weighted sum away.
-/

namespace Prevision

variable {σ : Type} [State σ] {u : σ → ℚ}

/-- The payoffs in a state, weighted by the position of the ray, where the positions start from `k`. -/
def weighted (rays : List (Ray σ)) (k : ℕ) (w : ℕ → ℚ) (x : σ) : ℚ :=
  ((rays.zipIdx k).map fun r => w r.2 * r.1.payoff x).sum

theorem weighted_cons (r : Ray σ) (rays : List (Ray σ)) (k : ℕ) (w : ℕ → ℚ) (x : σ) :
    weighted (r :: rays) k w x = w k * r.payoff x + weighted rays (k + 1) w x := by
  rw [weighted, List.zipIdx_cons, List.map_cons, List.sum_cons]
  rfl

theorem weighted_congr {rays : List (Ray σ)} {k : ℕ} {w w' : ℕ → ℚ}
    (same : ∀ j, k ≤ j → j < k + rays.length → w j = w' j) (x : σ) :
    weighted rays k w x = weighted rays k w' x := by
  refine congrArg List.sum (List.map_congr_left fun r hr => ?_)
  rw [same r.2 (List.le_snd_of_mem_zipIdx hr) (List.snd_lt_add_of_mem_zipIdx hr)]

/-- What rays generate are their weighted sums. The induction is on the rays. -/
theorem generated_iff_weighted {rays : List (Ray σ)} {k : ℕ} :
    Generated {f | ∃ r ∈ rays, f = r.payoff} ⊥ u ↔
      ∃ w : ℕ → ℚ, (∀ j, 0 ≤ w j) ∧ u = weighted rays k w := by
  induction rays generalizing k u with
  | nil =>
    constructor
    · intro generated
      have line := generated.mem_of_no_ray fun _ ⟨r, hr, _⟩ => List.not_mem_nil hr
      exact ⟨0, fun _ => le_rfl, (Submodule.mem_bot ℚ).1 line⟩
    · rintro ⟨w, -, rfl⟩
      exact .zero
  | cons r rays ih =>
    have rest : {f : σ → ℚ | ∃ s ∈ r :: rays, f = s.payoff} =
        insert r.payoff {f | ∃ s ∈ rays, f = s.payoff} := by
      ext f
      exact List.exists_mem_cons_iff _ r rays
    rw [rest, Generated.insert_iff]
    constructor
    · rintro ⟨t, ht, generated⟩
      obtain ⟨w, nonneg, same⟩ := (ih (k := k + 1)).1 generated
      refine ⟨Function.update w k t, fun j => ?_, funext fun x => ?_⟩
      · rcases eq_or_ne j k with rfl | ne
        · rwa [Function.update_self]
        · rw [Function.update_of_ne ne]
          exact nonneg j
      · have others : weighted rays (k + 1) (Function.update w k t) x = weighted rays (k + 1) w x :=
          weighted_congr (fun j low _ => Function.update_of_ne (by omega) t w) x
        rw [weighted_cons, Function.update_self, others, ← same, Pi.sub_apply, Pi.smul_apply, smul_eq_mul,
          add_sub_cancel]
    · rintro ⟨w, nonneg, rfl⟩
      refine ⟨w k, nonneg k, (ih (k := k + 1)).2 ⟨w, nonneg, funext fun x => ?_⟩⟩
      rw [Pi.sub_apply, Pi.smul_apply, weighted_cons, smul_eq_mul, add_sub_cancel_left]

/-- What rays generate are their sums weighted by the entries of a row. -/
theorem generated_iff_row {rays : List (Ray σ)} : Generated {f | ∃ r ∈ rays, f = r.payoff} ⊥ u ↔
    ∃ x : Row, x.length = rays.length ∧ (∀ j < rays.length, 0 ≤ Row.entry x j) ∧
      u = weighted rays 0 (Row.entry x) := by
  rw [generated_iff_weighted (k := 0)]
  constructor
  · rintro ⟨w, nonneg, rfl⟩
    have entry {j : ℕ} (hj : j < rays.length) : Row.entry ((List.range rays.length).map w) j = w j :=
      Row.entry_map_range hj w
    refine ⟨(List.range rays.length).map w,
      by rw [List.length_map, List.length_range], fun j hj => ?_, funext fun s => ?_⟩
    · rw [entry hj]
      exact nonneg j
    · exact weighted_congr (fun j _ hj => (entry (by rwa [Nat.zero_add] at hj)).symm) s
  · rintro ⟨x, width, nonneg, rfl⟩
    refine ⟨Row.entry x, fun j => ?_, rfl⟩
    rcases Nat.lt_or_ge j rays.length with lt | ge
    · exact nonneg j lt
    · exact (Row.entry_of_le (width.trans_le ge)).ge

/-- Terms that take the payoffs away, where the weight of each ray is the variable at its place. -/
theorem sumTerms_weighted (rays : List (Ray σ)) (place : ℕ → ℕ) (s : σ) (x : Row) :
    AffineForm.sumTerms (rays.zipIdx.map fun r => (place r.2, -r.1.payoff s)) x =
      -weighted rays 0 (fun j => Row.entry x (place j)) s := by
  rw [AffineForm.sumTerms, weighted, List.map_map, ← neg_one_mul, ← List.sum_map_mul_left]
  refine congrArg List.sum (List.map_congr_left fun r _ => ?_)
  show -r.1.payoff s * Row.entry x (place r.2) = _
  ring

/-- What the rays of desirable gambles generate, with a weight for each ray. -/
theorem DesirabilitySet.generated_iff_sum {D : DesirabilitySet σ} : Generated D.payoffs ⊥ u ↔
    ∃ w : Ray σ → ℚ, (∀ r ∈ D.generators, 0 ≤ w r) ∧
      u = fun x => ∑ r ∈ D.generators.toFinset, w r * r.payoff x := by
  classical
  constructor
  · intro generated
    refine generated.mem_of_closed (C := {u | ∃ w : Ray σ → ℚ, (∀ r ∈ D.generators, 0 ≤ w r) ∧
      u = fun x => ∑ r ∈ D.generators.toFinset, w r * r.payoff x}) (fun l hl => ?_) ?_
    · refine ⟨0, fun _ _ => le_rfl, ?_⟩
      rw [(Submodule.mem_bot ℚ).1 hl]
      refine funext fun x => (Finset.sum_eq_zero fun r _ => ?_).symm
      exact zero_mul _
    · rintro _ ⟨w, nonneg, rfl⟩ _ ⟨s, hs, rfl⟩ a ha
      refine ⟨fun r => w r + if r = s then a else 0, fun r hr => add_nonneg (nonneg r hr) ?_,
        funext fun x => ?_⟩
      · split
        · exact ha
        · exact le_rfl
      · simp only [add_mul, Finset.sum_add_distrib, ite_mul, zero_mul, Finset.sum_ite_eq',
          SortedSet.mem_toFinset, if_pos hs, Pi.add_apply, Pi.smul_apply, smul_eq_mul]
  · rintro ⟨w, nonneg, rfl⟩
    have sum : (fun x => ∑ r ∈ D.generators.toFinset, w r * r.payoff x) =
        ∑ r ∈ D.generators.toFinset, w r • r.payoff := by
      funext x
      simp only [Finset.sum_apply, Pi.smul_apply, smul_eq_mul]
    rw [sum]
    refine Finset.sum_induction _ (Generated D.payoffs ⊥) (fun _ _ => Generated.add) .zero fun r hr => ?_
    have ray : r.payoff ∈ D.payoffs := ⟨r, hr, rfl⟩
    exact .ray ray (nonneg r hr)

end Prevision
