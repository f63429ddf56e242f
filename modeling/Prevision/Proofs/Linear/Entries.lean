import Mathlib.Algebra.BigOperators.Ring.Finset
import Mathlib.Algebra.Order.Field.Rat
import Mathlib.Data.List.GetD
import Mathlib.Tactic.Linarith
import Mathlib.Tactic.Ring
import Prevision.Linear.Row

/-!
# Rows entry by entry

What the operations on rows do to each entry, and products and totals as
sums over positions, so that identities between rows can be read off from
identities between numbers.

* `entry_scale`, `entry_neg`, `entry_subMul`, `entry_unit`, `entry_append_left`,
  `entry_append_right`, `entry_map_range`: the entries of each operation;
* `eq_of_entry`: rows of one width with the same entries are equal;
* `dot_eq_sum`: a product is the sum over the positions of either row;
* `dot_append_left`: the product of rows laid end to end;
* `abs_le_norm`, `exists_abs_eq_norm`: the norm is the greatest absolute value of an entry;
* `norm_eq_zero_iff`, `norm_eq_one`: only rows of zeros have norm zero, and rows of ones have norm one.
-/

namespace Prevision.Row

@[simp] theorem entry_nil (i : Nat) : entry [] i = 0 := List.getD_nil

@[simp] theorem entry_cons_zero (a : Rat) (r : Row) : entry (a :: r) 0 = a := rfl

@[simp] theorem entry_cons_succ (a : Rat) (r : Row) (i : Nat) : entry (a :: r) (i + 1) = entry r i :=
  List.getD_cons_succ

@[simp] theorem entry_tail (r : Row) (i : Nat) : entry r.tail i = entry r (i + 1) := by
  cases r with
  | nil => rw [List.tail_nil, entry_nil, entry_nil]
  | cons a r => rfl

theorem neg_tail (r : Row) : neg r.tail = (neg r).tail := by cases r <;> rfl

theorem entry_of_le {r : Row} {i : Nat} (h : r.length ≤ i) : entry r i = 0 :=
  List.getD_eq_default _ _ h

theorem entry_eq_getElem {r : Row} {i : Nat} (h : i < r.length) : entry r i = r[i] := by
  rw [entry, List.getD_eq_getElem?_getD, List.getElem?_eq_getElem h, Option.getD_some]

theorem eq_of_entry {r s : Row} (width : r.length = s.length)
    (h : ∀ i < r.length, entry r i = entry s i) : r = s := by
  refine List.ext_getElem width fun i hr hs => ?_
  rw [← entry_eq_getElem hr, ← entry_eq_getElem hs, h i hr]

@[simp] theorem entry_scale (c : Rat) (r : Row) (i : Nat) : entry (scale c r) i = c * entry r i := by
  rcases Nat.lt_or_ge i r.length with h | h
  · rw [entry_eq_getElem h, entry_eq_getElem (by rwa [length_scale])]
    exact List.getElem_map _
  · rw [entry_of_le h, entry_of_le (by rwa [length_scale]), mul_zero]

@[simp] theorem entry_neg (r : Row) (i : Nat) : entry (neg r) i = -entry r i := by
  rcases Nat.lt_or_ge i r.length with h | h
  · rw [entry_eq_getElem h, entry_eq_getElem (by rwa [length_neg])]
    exact List.getElem_map _
  · rw [entry_of_le h, entry_of_le (by rwa [length_neg]), neg_zero]

theorem entry_subMul (c : Rat) {r s : Row} (width : r.length = s.length) (i : Nat) :
    entry (subMul r c s) i = entry r i - c * entry s i := by
  rcases Nat.lt_or_ge i r.length with h | h
  · rw [entry_eq_getElem (r := subMul r c s) (by rwa [length_subMul c width]), entry_eq_getElem h,
      entry_eq_getElem (width ▸ h)]
    exact List.getElem_zipWith
  · rw [entry_of_le (r := subMul r c s) (by rwa [length_subMul c width]), entry_of_le h,
      entry_of_le (width ▸ h), mul_zero, sub_zero]

theorem entry_map_range {n i : Nat} (h : i < n) (f : Nat → Rat) :
    entry ((List.range n).map f) i = f i := by
  rw [entry_eq_getElem (by simpa using h), List.getElem_map, List.getElem_range]

theorem entry_unit {n i : Nat} (h : i < n) (k : Nat) : entry (unit n k) i = if i = k then 1 else 0 :=
  entry_map_range h _

@[simp] theorem entry_zero (n i : Nat) : entry (zero n) i = 0 := by
  rcases Nat.lt_or_ge i n with h | h
  · rw [entry_eq_getElem (by simpa using h)]
    exact List.getElem_replicate _
  · exact entry_of_le (by simpa using h)

theorem entry_append_left {r : Row} {i : Nat} (h : i < r.length) (s : Row) :
    entry (r ++ s) i = entry r i := List.getD_append _ _ _ _ h

theorem entry_append_right {r : Row} {i : Nat} (h : r.length ≤ i) (s : Row) :
    entry (r ++ s) i = entry s (i - r.length) := List.getD_append_right _ _ _ _ h

theorem entry_append_zero (r : Row) (n i : Nat) : entry (r ++ zero n) i = entry r i := by
  rcases Nat.lt_or_ge i r.length with h | h
  · exact entry_append_left h _
  · rw [entry_append_right h, entry_zero, entry_of_le h]

theorem entry_map {r : Row} {i : Nat} (h : i < r.length) (f : Rat → Rat) :
    entry (r.map f) i = f (entry r i) := by
  rw [entry_eq_getElem h, entry_eq_getElem (by rwa [List.length_map]), List.getElem_map]

theorem entry_nonneg {r : Row} (h : ∀ v ∈ r, 0 ≤ v) (i : Nat) : 0 ≤ entry r i := by
  rcases Nat.lt_or_ge i r.length with lt | ge
  · rw [entry_eq_getElem lt]
    exact h _ (List.getElem_mem lt)
  · exact (entry_of_le ge).ge

/-! ## Products and totals as sums -/

/-- A product is the sum over the positions of the left row, and of any more. -/
theorem dot_eq_sum {r : Row} {n : Nat} (width : r.length ≤ n) (s : Row) :
    dot r s = ∑ i ∈ Finset.range n, entry r i * entry s i := by
  induction r generalizing n s with
  | nil => simp
  | cons a r ih =>
    obtain ⟨n, rfl⟩ : ∃ m, n = m + 1 := ⟨n - 1, by rw [List.length_cons] at width; omega⟩
    cases s with
    | nil => simp
    | cons b s =>
      rw [dot_cons, Finset.sum_range_succ', ih (by simpa using width) s]
      simp only [entry_cons_zero, entry_cons_succ]
      exact add_comm _ _

/-- A product with two rows laid end to end, against one row. -/
theorem dot_append_left (r s y : Row) : dot (r ++ s) y = dot r y + dot s (y.drop r.length) := by
  induction r generalizing y with
  | nil => simp
  | cons a r ih =>
    cases y with
    | nil => simp
    | cons b y =>
      simp only [List.cons_append, dot_cons, ih, List.length_cons, List.drop_succ_cons, add_assoc]

@[simp] theorem entry_drop (r : Row) (k i : Nat) : entry (r.drop k) i = entry r (k + i) := by
  simp [entry, List.getD_eq_getElem?_getD]

theorem dot_neg (r s : Row) : dot (neg r) s = -dot r s := by
  rw [dot_eq_sum (n := r.length) (by simp), dot_eq_sum (n := r.length) le_rfl, ← Finset.sum_neg_distrib]
  exact Finset.sum_congr rfl fun i _ => by rw [entry_neg, neg_mul]

theorem dot_zero (n : Nat) (s : Row) : dot (zero n) s = 0 := by
  rw [dot_eq_sum (n := n) (by simp)]
  exact Finset.sum_eq_zero fun i _ => by rw [entry_zero, zero_mul]

theorem dot_unit {n k : Nat} (h : k < n) (s : Row) : dot (unit n k) s = entry s k := by
  rw [dot_eq_sum (n := n) (by simp), Finset.sum_eq_single k]
  · rw [entry_unit h, if_pos rfl, one_mul]
  · intro i hi ne
    rw [entry_unit (Finset.mem_range.1 hi), if_neg ne, zero_mul]
  · exact fun out => absurd (Finset.mem_range.2 h) out

theorem total_eq_sum (r : Row) : total r = r.sum := by
  induction r with
  | nil => rfl
  | cons a r ih => rw [total, ih, List.sum_cons]

/-! ## Norms -/

theorem abs_eq (a : ℚ) : a.abs = |a| := by
  unfold Rat.abs
  split
  · rename_i nonneg
    exact (abs_of_nonneg nonneg).symm
  · rename_i negative
    exact (abs_of_neg (not_le.1 negative)).symm

theorem abs_eq_zero_iff {a : ℚ} : a.abs = 0 ↔ a = 0 := by rw [abs_eq, abs_eq_zero]

theorem abs_le_norm {r : Row} : ∀ a ∈ r, |a| ≤ norm r := by
  induction r with
  | nil => exact fun a ha => absurd ha List.not_mem_nil
  | cons b r ih =>
    rw [norm, abs_eq]
    split
    · rename_i le
      exact List.forall_mem_cons.2 ⟨le, ih⟩
    · rename_i gt
      exact List.forall_mem_cons.2 ⟨le_rfl, fun a ha => (ih a ha).trans (not_le.1 gt).le⟩

theorem exists_abs_eq_norm {r : Row} (ne : norm r ≠ 0) : ∃ a ∈ r, |a| = norm r := by
  induction r with
  | nil => exact absurd rfl ne
  | cons b r ih =>
    rw [norm, abs_eq] at ne ⊢
    split
    · rename_i le
      rw [if_pos le] at ne
      exact (ih ne).imp fun a => And.imp_left (List.mem_cons_of_mem b)
    · exact ⟨b, List.mem_cons_self, rfl⟩

theorem norm_eq_zero_iff {r : Row} : norm r = 0 ↔ isZero r = true := by
  rw [isZero_iff]
  induction r with
  | nil => simp [norm]
  | cons a r ih =>
    have rest := norm_nonneg r
    rw [norm, List.forall_mem_cons, ← ih]
    split
    · rename_i le
      refine ⟨fun zero => ⟨?_, zero⟩, And.right⟩
      exact abs_eq_zero_iff.1 (le_antisymm (le.trans zero.le) Rat.abs_nonneg)
    · rename_i lt
      refine ⟨fun zero => absurd rest ?_, fun zero => abs_eq_zero_iff.2 zero.1⟩
      rwa [zero] at lt

theorem norm_eq_one {r : Row} (some_entry : r ≠ []) (ones : ∀ a ∈ r, a = 1) : norm r = 1 := by
  induction r with
  | nil => exact absurd rfl some_entry
  | cons a r ih =>
    obtain ⟨one, rest⟩ := List.forall_mem_cons.1 ones
    have abs : (1 : ℚ).abs = 1 := rfl
    rw [norm, one, abs]
    rcases eq_or_ne r [] with rfl | some_rest
    · rfl
    · rw [ih some_rest rest, if_pos le_rfl]

end Prevision.Row
