/-!
# Rows of rationals

The vectors of the library: lists of rationals, added and scaled entry by
entry. Where two rows differ in length the entries beyond the shorter one
have no part in a product or a difference, and an entry past the end of a
row reads as zero.

* `dot_comm`, `dot_scale`, `dot_subMul`, `dot_map_add`: products are symmetric and linear.
* `dot_map_single`: the product with a row that is zero but for one entry.
* `length_scale`, `length_subMul`, `length_unit`: the widths of the results.
* `norm_scale`, `norm_neg`, `norm_filter` and `total_scale`, `total_filter`: how
  norms and totals follow their rows; zeros have no part in either.
-/

namespace Prevision

/-- A row of rationals. -/
abbrev Row := List Rat

namespace Row

/-- The entry at a position. -/
def entry (r : Row) (i : Nat) : Rat := r.getD i 0

/-- The sum of the entries. -/
def total : Row → Rat
  | [] => 0
  | a :: r => a + total r

/-- The sum of the products of entries at equal positions. -/
def dot : Row → Row → Rat
  | a :: r, b :: s => a * b + dot r s
  | _, _ => 0

/-- Every entry times `c`. -/
def scale (c : Rat) (r : Row) : Row := r.map (c * ·)

/-- Every entry with the opposite sign. -/
def neg (r : Row) : Row := r.map (-·)

/-- `r - c • s`. -/
def subMul (r : Row) (c : Rat) (s : Row) : Row := List.zipWith (fun a b => a - c * b) r s

/-- The row of `n` zeros. -/
def zero (n : Nat) : Row := List.replicate n 0

/-- The row of width `n` with one at position `i` and zeros elsewhere. -/
def unit (n i : Nat) : Row := (List.range n).map fun j => if j = i then 1 else 0

/-- Whether every entry is zero. -/
def isZero (r : Row) : Bool := r.all (· == 0)

/-- The greatest absolute value of an entry. -/
def norm : Row → Rat
  | [] => 0
  | a :: r => if a.abs ≤ norm r then norm r else a.abs

/-- The least entry, and zero for the empty row. -/
def least : Row → Rat
  | [] => 0
  | [a] => a
  | a :: b :: r => if least (b :: r) < a then least (b :: r) else a

/-- The greatest entry, and zero for the empty row. -/
def greatest : Row → Rat
  | [] => 0
  | [a] => a
  | a :: b :: r => if a < greatest (b :: r) then greatest (b :: r) else a

/-- The row over its norm, so that the greatest absolute value is one; a row of zeros stays. -/
def normalized (r : Row) : Row := if norm r = 0 then r else scale (norm r)⁻¹ r

/-- The value of the affine form `b + a · x` that the row `b :: a` stands for. -/
def eval (r : Row) (x : Row) : Rat := entry r 0 + dot r.tail x

@[simp] theorem dot_nil_left (r : Row) : dot [] r = 0 := by cases r <;> rfl

@[simp] theorem dot_nil_right (r : Row) : dot r [] = 0 := by cases r <;> rfl

@[simp] theorem dot_cons (a b : Rat) (r s : Row) : dot (a :: r) (b :: s) = a * b + dot r s := rfl

theorem dot_comm (r s : Row) : dot r s = dot s r := by
  induction r generalizing s with
  | nil => simp
  | cons a r ih => cases s <;> simp [ih, Rat.mul_comm]

theorem dot_scale (c : Rat) (r s : Row) : dot (scale c r) s = c * dot r s := by
  induction r generalizing s with
  | nil => exact (dot_nil_left s).trans (by rw [dot_nil_left, Rat.mul_zero])
  | cons a r ih =>
    cases s with
    | nil => rw [dot_nil_right, dot_nil_right, Rat.mul_zero]
    | cons b s =>
      have := ih s
      simp only [scale, List.map_cons, dot_cons] at this ⊢
      rw [this]
      grind

theorem dot_subMul (c : Rat) {r s : Row} (t : Row) (h : r.length = s.length) :
    dot (subMul r c s) t = dot r t - c * dot s t := by
  induction r generalizing s t with
  | nil =>
    cases s with
    | nil =>
      rw [dot_nil_left, Rat.mul_zero, Rat.sub_eq_add_neg, Rat.neg_zero, Rat.add_zero]
      exact dot_nil_left t
    | cons b s => simp at h
  | cons a r ih =>
    cases s with
    | nil => simp at h
    | cons b s =>
      cases t with
      | nil =>
        rw [dot_nil_right, dot_nil_right, dot_nil_right, Rat.mul_zero, Rat.sub_eq_add_neg,
          Rat.neg_zero, Rat.add_zero]
      | cons x t =>
        have := ih t (Nat.succ.inj h)
        simp only [subMul, List.zipWith_cons_cons, dot_cons] at this ⊢
        rw [this]
        grind

theorem dot_map_zero (l : List Nat) (x : Row) : dot (l.map fun _ => (0 : Rat)) x = 0 := by
  induction l generalizing x with
  | nil => exact dot_nil_left x
  | cons j l ih =>
    cases x with
    | nil => exact dot_nil_right _
    | cons a x => rw [List.map_cons, dot_cons, ih, Rat.zero_mul, Rat.add_zero]

theorem dot_map_add (f g : Nat → Rat) (l : List Nat) (x : Row) :
    dot (l.map fun j => f j + g j) x = dot (l.map f) x + dot (l.map g) x := by
  induction l generalizing x with
  | nil =>
    simp only [List.map_nil, dot_nil_left]
    exact (Rat.add_zero 0).symm
  | cons j l ih =>
    cases x with
    | nil =>
      simp only [dot_nil_right]
      exact (Rat.add_zero 0).symm
    | cons a x =>
      simp only [List.map_cons, dot_cons, ih]
      grind

theorem dot_map_single_range' {start n i : Nat} (low : start ≤ i) (high : i < start + n) (c : Rat)
    (x : Row) : dot ((List.range' start n).map fun j => if i = j then c else 0) x =
      c * entry x (i - start) := by
  induction n generalizing start x with
  | zero => exact absurd high (by omega)
  | succ n ih =>
    rw [List.range'_succ, List.map_cons]
    cases x with
    | nil => rw [dot_nil_right, entry, List.getD_nil, Rat.mul_zero]
    | cons a x =>
      rw [dot_cons]
      by_cases h : i = start
      · have rest : (List.range' (start + 1) n).map (fun j => if i = j then c else 0) =
            (List.range' (start + 1) n).map fun _ => 0 := by
          refine List.map_congr_left fun j hj => if_neg ?_
          have := List.mem_range'_1.1 hj
          omega
        rw [rest, dot_map_zero, if_pos h, h, Nat.sub_self, Rat.add_zero]
        rfl
      · rw [ih (by omega) (by omega), if_neg h, Rat.zero_mul, Rat.zero_add,
          show i - start = (i - (start + 1)) + 1 by omega]
        rfl

theorem dot_map_single {n i : Nat} (h : i < n) {c : Rat} {x : Row} :
    dot ((List.range n).map fun j => if i = j then c else 0) x = c * entry x i := by
  rw [List.range_eq_range']
  exact dot_map_single_range' (Nat.zero_le i) (by omega) c x

@[simp] theorem length_scale (c : Rat) (r : Row) : (scale c r).length = r.length := List.length_map _

@[simp] theorem length_neg (r : Row) : (neg r).length = r.length := List.length_map _

@[simp] theorem length_zero (n : Nat) : (zero n).length = n := List.length_replicate

@[simp] theorem length_unit (n i : Nat) : (unit n i).length = n := by simp [unit]

@[simp] theorem length_normalized (r : Row) : (normalized r).length = r.length := by
  unfold normalized
  split <;> simp

theorem length_subMul (c : Rat) {r s : Row} (h : r.length = s.length) :
    (subMul r c s).length = r.length := by simp [subMul, h]

theorem norm_nonneg (r : Row) : 0 ≤ norm r := by
  induction r with
  | nil => exact Rat.le_refl
  | cons a r ih =>
    unfold norm
    split
    · exact ih
    · exact Rat.abs_nonneg

theorem abs_mul_of_nonneg {c : Rat} (h : 0 ≤ c) (a : Rat) : (c * a).abs = c * a.abs := by
  rcases Rat.le_total (a := 0) (b := a) with ha | ha
  · rw [Rat.abs_of_nonneg ha, Rat.abs_of_nonneg (Rat.mul_nonneg h ha)]
  · have ha' : 0 ≤ -a := by grind
    rw [← Rat.abs_neg (x := a), Rat.abs_of_nonneg ha', ← Rat.abs_neg,
      Rat.abs_of_nonneg (by have := Rat.mul_nonneg h ha'; grind)]
    grind

theorem norm_scale {c : Rat} (h : 0 < c) (r : Row) : norm (scale c r) = c * norm r := by
  induction r with
  | nil => exact (Rat.mul_zero c).symm
  | cons a r ih =>
    have step : norm (scale c (a :: r)) =
        if (c * a).abs ≤ norm (scale c r) then norm (scale c r) else (c * a).abs := rfl
    rw [step, ih, abs_mul_of_nonneg (Rat.le_of_lt h)]
    have le_iff : c * a.abs ≤ c * norm r ↔ a.abs ≤ norm r := by
      rw [← Rat.not_lt, ← Rat.not_lt, Rat.mul_lt_mul_left h]
    simp only [norm, le_iff]
    split <;> rfl

theorem norm_neg (r : Row) : norm (neg r) = norm r := by
  induction r with
  | nil => rfl
  | cons a r ih =>
    show (if (-a).abs ≤ norm (neg r) then norm (neg r) else (-a).abs) = _
    rw [ih, Rat.abs_neg]
    rfl

theorem norm_filter (r : Row) : norm (r.filter (· != 0)) = norm r := by
  induction r with
  | nil => rfl
  | cons a r ih =>
    by_cases h : a = 0
    · have := norm_nonneg r
      simp [h, ih, norm, Rat.abs_zero, this]
    · simp [h, norm, ih]

theorem total_scale (c : Rat) (r : Row) : total (scale c r) = c * total r := by
  induction r with
  | nil => exact (Rat.mul_zero c).symm
  | cons a r ih =>
    show c * a + total (scale c r) = _
    rw [ih, total, Rat.mul_add]

theorem total_filter (r : Row) : total (r.filter (· != 0)) = total r := by
  induction r with
  | nil => rfl
  | cons a r ih =>
    by_cases h : a = 0
    · rw [h, total, Rat.zero_add, ← ih]
      rfl
    · simp [h, total, ih]

theorem scale_one (r : Row) : scale 1 r = r :=
  (List.map_congr_left fun a _ => Rat.one_mul a).trans (List.map_id' r)

/-- A row over its norm points in the same direction. -/
theorem exists_normalized_eq_scale (r : Row) : ∃ c, 0 < c ∧ normalized r = scale c r := by
  unfold normalized
  split
  · exact ⟨1, by decide, (scale_one r).symm⟩
  · rename_i h
    exact ⟨_, Rat.inv_pos.2 (Rat.lt_of_le_of_ne (norm_nonneg r) (Ne.symm h)), rfl⟩

theorem isZero_iff {r : Row} : isZero r = true ↔ ∀ a ∈ r, a = 0 := by simp [isZero]

end Row

end Prevision
