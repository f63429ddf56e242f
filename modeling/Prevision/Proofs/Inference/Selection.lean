import Mathlib.Algebra.BigOperators.Ring.Finset
import Mathlib.Algebra.Order.Field.Rat
import Prevision.Cone

/-!
# Selections of cones

A `Selection` takes some entries of a list of cones, of cones with rays, and
gives every ray of these a positive weight. Entries count, not cones: a cone
that stands in the list twice may be taken twice.

A selection is exact if its weighted sum is a positive multiple of a target,
or zero if there is no target; it loses if the sum is nowhere positive and
somewhere negative. `weightAt` extends its weights by zero to all positions.
-/

namespace Prevision

variable {σ : Type} [State σ]

/-- The weighted sum of the rays of a cone in a state. -/
def Cone.payoff (C : Cone σ) (weight : Ray σ → Rat) (x : σ) : Rat :=
  (C.rays.toList.map fun r => weight r * r.payoff x).sum

/-- The cone at a position of a list, one without rays past its end. -/
def coneAt (cones : List (Cone σ)) (i : Nat) : Cone σ := cones.getD i ⟨∅⟩

/-- The payoff of a multiple of the target, zero without a target. -/
def targetPayoff (target : Option (Gamble σ)) (multiple : Rat) (x : σ) : Rat :=
  match target with
  | none => 0
  | some f => (f.scale multiple).payoff x

/-- Some entries of a list of cones, of cones with rays, with positive weights on all of these. -/
structure Selection (cones : List (Cone σ)) where
  entries : Finset Nat
  weight : Nat → Ray σ → Rat
  lt_length : ∀ i ∈ entries, i < cones.length
  nonempty : ∀ i ∈ entries, (coneAt cones i).isEmpty = false
  positive : ∀ i ∈ entries, ∀ r ∈ (coneAt cones i).rays, 0 < weight i r

namespace Selection

variable {cones : List (Cone σ)}

/-- The weighted sum of the rays of all entries in a state. -/
def payoff (s : Selection cones) (x : σ) : Rat :=
  ∑ i ∈ s.entries, (coneAt cones i).payoff (s.weight i) x

/-- Some cone is selected, and the weighted sum is a positive multiple of the target in every state,
or zero without a target. -/
structure Exact (s : Selection cones) (target : Option (Gamble σ)) : Prop where
  some_entry : s.entries.Nonempty
  balanced : ∃ multiple : Rat, 0 < multiple ∧ ∀ x, s.payoff x = targetPayoff target multiple x

/-- Some cone is selected, and the weighted sum is nowhere positive and somewhere negative. -/
structure Loses (s : Selection cones) : Prop where
  some_entry : s.entries.Nonempty
  nonpos : ∀ x, s.payoff x ≤ 0
  negative : ∃ x, s.payoff x < 0

/-- The weights of the entries, zero elsewhere. -/
def weightAt (s : Selection cones) (i : Nat) (r : Ray σ) : Rat := if i ∈ s.entries then s.weight i r else 0

theorem weightAt_nonneg (s : Selection cones) (i : Nat) {r : Ray σ} (hr : r ∈ (coneAt cones i).rays) :
    0 ≤ s.weightAt i r := by
  rw [weightAt]
  split
  · rename_i hi
    exact (s.positive i hi r hr).le
  · exact le_rfl

theorem weightAt_pos {s : Selection cones} {i : Nat} (hi : i ∈ s.entries) {r : Ray σ}
    (hr : r ∈ (coneAt cones i).rays) : 0 < s.weightAt i r := by
  rw [weightAt, if_pos hi]
  exact s.positive i hi r hr

/-- The sum over more positions than the entries. -/
theorem sum_weightAt (s : Selection cones) {entries : Finset Nat} (within : s.entries ⊆ entries) (x : σ) :
    ∑ i ∈ entries, (coneAt cones i).payoff (s.weightAt i) x = s.payoff x := by
  refine (Finset.sum_subset within fun i _ out => ?_).symm.trans (Finset.sum_congr rfl fun i hi => ?_)
  · refine List.sum_eq_zero fun v hv => ?_
    obtain ⟨r, -, rfl⟩ := List.mem_map.1 hv
    rw [weightAt, if_neg out, zero_mul]
  · refine congrArg List.sum (List.map_congr_left fun r _ => ?_)
    rw [weightAt, if_pos hi]

end Selection

@[simp] theorem targetPayoff_none (multiple : Rat) (x : σ) : targetPayoff none multiple x = 0 := rfl

@[simp] theorem targetPayoff_some (f : Gamble σ) (multiple : Rat) (x : σ) :
    targetPayoff (some f) multiple x = multiple * f.payoff x := Gamble.payoff_scale _ _ _

theorem targetPayoff_add_mul (target : Option (Gamble σ)) (a b c : Rat) (x : σ) :
    targetPayoff target (a + c * b) x = targetPayoff target a x + c * targetPayoff target b x := by
  cases target with
  | none => rw [targetPayoff_none, targetPayoff_none, targetPayoff_none, mul_zero, add_zero]
  | some f => rw [targetPayoff_some, targetPayoff_some, targetPayoff_some, add_mul, mul_assoc]

/-- Where no ray of the cone has a payoff, no weighted sum of its rays has one. -/
theorem Cone.payoff_eq_zero {C : Cone σ} {x : σ} (h : x ∉ C.domain) (weight : Ray σ → Rat) :
    C.payoff weight x = 0 := by
  refine List.sum_eq_zero fun v hv => ?_
  obtain ⟨r, hr, rfl⟩ := List.mem_map.1 hv
  have out : x ∉ r.domain := fun inside => h (SortedSet.mem_flatMap.2 ⟨r, hr, inside⟩)
  have : r.payoff x = 0 := Table.payoff_eq_zero out
  rw [this, mul_zero]

end Prevision
