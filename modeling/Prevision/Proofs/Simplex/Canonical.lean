import Prevision.Proofs.Linear.Entries
import Prevision.Simplex.Tableau

/-!
# Canonical tableaux

A tableau is canonical when every line is solved for its basic column and
no other line has a coefficient for it. Its basic solution then satisfies
every line (`holds_point`) and is the only solution that is zero on all
columns that are not basic (`Canonical.eq_value`).

* `Canonical.pivot`: a pivot on a coefficient that is not zero keeps a tableau
  canonical, and exchanges one basic column for another
  (`Canonical.isBasic_pivot`);
* `Canonical.holds_pivot_iff`: it keeps the solutions;
* `Canonical.dot_point`, `Canonical.dot_direction`: the product of a row with the
  basic solution, and with the direction of a column, is a sum over the lines.
-/

namespace Prevision.Tableau

variable {t : Tableau}

/-- Every line is solved for its basic column, and no other line has a coefficient for it. -/
structure Canonical (t : Tableau) : Prop where
  width : ∀ l ∈ t.lines, l.entries.length = t.columns
  basic_lt : ∀ l ∈ t.lines, l.basic < t.columns
  diagonal : ∀ l ∈ t.lines, l.entry l.basic = 1
  apart : t.lines.Pairwise fun l m => l.entry m.basic = 0 ∧ m.entry l.basic = 0

/-- The column is the basic one of some line. -/
def IsBasic (t : Tableau) (j : Nat) : Prop := ∃ l ∈ t.lines, l.basic = j

/-- Gives each basic column what `g` says of its line, and zero to all other columns. -/
def spread (t : Tableau) (g : Line → Rat) (j : Nat) : Rat :=
  match t.lines.find? (·.basic == j) with
  | some line => g line
  | none => 0

/-- The values of all columns at the basic solution. -/
def point (t : Tableau) : Row := (List.range t.columns).map t.value

/-- The change of all columns when column `j` is raised by one. -/
def direction (t : Tableau) (j : Nat) : Row :=
  (List.range t.columns).map fun i => (if i = j then 1 else 0) - t.spread (·.entry j) i

theorem value_eq_spread (t : Tableau) (j : Nat) : t.value j = t.spread Line.rhs j := rfl

theorem Canonical.entry_basic (h : t.Canonical) {l m : Line} (hl : l ∈ t.lines) (hm : m ∈ t.lines)
    (ne : l ≠ m) : l.entry m.basic = 0 :=
  have : Std.Symm fun l m : Line => l.entry m.basic = 0 ∧ m.entry l.basic = 0 :=
    ⟨fun _ _ h => ⟨h.2, h.1⟩⟩
  (h.apart.forall hl hm ne).1

theorem Canonical.basic_injective (h : t.Canonical) {l m : Line} (hl : l ∈ t.lines)
    (hm : m ∈ t.lines) (e : l.basic = m.basic) : l = m := by
  by_contra ne
  have zero := h.entry_basic hl hm ne
  rw [← e, h.diagonal l hl] at zero
  exact one_ne_zero zero

theorem Canonical.nodup (h : t.Canonical) : t.lines.Nodup := by
  refine List.nodup_iff_pairwise_ne.2 (h.apart.imp_of_mem fun {l m} hl _ zero e => ?_)
  rw [← e, h.diagonal l hl] at zero
  exact one_ne_zero zero.1

theorem Canonical.nodup_basic (h : t.Canonical) : (t.lines.map Line.basic).Nodup :=
  h.nodup.map_on fun _ hl _ hm e => h.basic_injective hl hm e

/-- Lines at different positions have different basic columns. -/
theorem Canonical.position_eq (h : t.Canonical) {i k : Nat} {l m : Line} (at_i : t.lines[i]? = some l)
    (at_k : t.lines[k]? = some m) (e : l.basic = m.basic) : i = k := by
  refine (List.getElem?_inj ?_ h.nodup_basic).1 ?_
  · rw [List.length_map]
    exact (List.getElem?_eq_some_iff.1 at_i).1
  · rw [List.getElem?_map, List.getElem?_map, at_i, at_k, Option.map_some, Option.map_some, e]

/-- The basic column of a line is one in this line and zero in all others. -/
theorem Canonical.entry_basic_eq (h : t.Canonical) {i k : Nat} {l m : Line} (at_i : t.lines[i]? = some l)
    (at_k : t.lines[k]? = some m) : m.entry l.basic = if k = i then 1 else 0 := by
  by_cases same : k = i
  · obtain rfl : l = m := Option.some.inj (at_i.symm.trans (same ▸ at_k))
    rw [if_pos same, h.diagonal l (List.mem_of_getElem? at_i)]
  · have other : m ≠ l := fun e => same (h.position_eq at_k at_i (congrArg Line.basic e))
    rw [if_neg same, h.entry_basic (List.mem_of_getElem? at_k) (List.mem_of_getElem? at_i) other]

theorem Canonical.find?_basic (h : t.Canonical) {l : Line} (hl : l ∈ t.lines) :
    t.lines.find? (·.basic == l.basic) = some l := by
  cases e : t.lines.find? (·.basic == l.basic) with
  | none => exact absurd (List.find?_eq_none.1 e l hl) (by simp)
  | some m =>
    have same : m.basic = l.basic := beq_iff_eq.1 (List.find?_some e :)
    rw [h.basic_injective (List.mem_of_find?_eq_some e) hl same]

theorem Canonical.spread_basic (h : t.Canonical) (g : Line → Rat) {l : Line} (hl : l ∈ t.lines) :
    t.spread g l.basic = g l := by
  rw [spread, h.find?_basic hl]

theorem spread_of_not_basic {j : Nat} (h : ¬t.IsBasic j) (g : Line → Rat) : t.spread g j = 0 := by
  have none : t.lines.find? (·.basic == j) = none :=
    List.find?_eq_none.2 fun l hl e => h ⟨l, hl, beq_iff_eq.1 e⟩
  rw [spread, none]

theorem Canonical.value_basic (h : t.Canonical) {l : Line} (hl : l ∈ t.lines) :
    t.value l.basic = l.rhs := h.spread_basic Line.rhs hl

theorem value_of_not_basic {j : Nat} (h : ¬t.IsBasic j) : t.value j = 0 :=
  spread_of_not_basic h Line.rhs

/-- What a canonical tableau spreads over the basic columns, weighted by `f`. -/
theorem Canonical.sum_spread (h : t.Canonical) (f : Nat → Rat) (g : Line → Rat) :
    ∑ j ∈ Finset.range t.columns, f j * t.spread g j =
      (t.lines.map fun l => f l.basic * g l).sum := by
  calc ∑ j ∈ Finset.range t.columns, f j * t.spread g j
      = ∑ j ∈ (t.lines.map Line.basic).toFinset, f j * t.spread g j := by
        symm
        refine Finset.sum_subset (fun j hj => ?_) fun j _ hj => ?_
        · obtain ⟨l, hl, rfl⟩ := List.mem_map.1 (List.mem_toFinset.1 hj)
          exact Finset.mem_range.2 (h.basic_lt l hl)
        · rw [spread_of_not_basic, mul_zero]
          rintro ⟨l, hl, rfl⟩
          exact hj (List.mem_toFinset.2 (List.mem_map_of_mem hl))
    _ = ((t.lines.map Line.basic).map fun j => f j * t.spread g j).sum := List.sum_toFinset _ h.nodup_basic
    _ = (t.lines.map fun l => f l.basic * g l).sum := by
        rw [List.map_map]
        exact congrArg List.sum (List.map_congr_left fun l hl => by
          rw [Function.comp_apply, h.spread_basic g hl])

/-- Of all lines only one counts in a sum over the coefficients for the basic columns. -/
theorem Canonical.sum_entry_basic (h : t.Canonical) {l : Line} (hl : l ∈ t.lines) (g : Line → Rat) :
    (t.lines.map fun m => l.entry m.basic * g m).sum = g l := by
  rw [List.sum_map_eq_nsmul_single l, List.count_eq_one_of_mem h.nodup hl, one_nsmul,
    h.diagonal l hl, one_mul]
  intro m ne hm
  rw [h.entry_basic hl hm (Ne.symm ne), zero_mul]

theorem Canonical.dot_eq_sum (h : t.Canonical) {l : Line} (hl : l ∈ t.lines) (y : Row) :
    Row.dot l.entries y = ∑ j ∈ Finset.range t.columns, l.entry j * Row.entry y j :=
  Row.dot_eq_sum (h.width l hl).le y

theorem entry_point {j : Nat} (h : j < t.columns) : Row.entry t.point j = t.value j :=
  Row.entry_map_range h _

theorem entry_direction {i : Nat} (h : i < t.columns) (j : Nat) :
    Row.entry (t.direction j) i = (if i = j then 1 else 0) - t.spread (·.entry j) i :=
  Row.entry_map_range h _

theorem Canonical.dot_point (h : t.Canonical) {y : Row} (width : y.length = t.columns) :
    Row.dot y t.point = (t.lines.map fun l => Row.entry y l.basic * l.rhs).sum := by
  rw [← h.sum_spread (Row.entry y) Line.rhs, Row.dot_eq_sum width.le]
  exact Finset.sum_congr rfl fun j hj => by
    rw [entry_point (Finset.mem_range.1 hj), value_eq_spread]

theorem Canonical.dot_direction (h : t.Canonical) {y : Row} (width : y.length = t.columns) {j : Nat}
    (hj : j < t.columns) : Row.dot y (t.direction j) =
      Row.entry y j - (t.lines.map fun l => Row.entry y l.basic * l.entry j).sum := by
  have split : ∀ i ∈ Finset.range t.columns, Row.entry y i * Row.entry (t.direction j) i =
      Row.entry y i * (if i = j then 1 else 0) - Row.entry y i * t.spread (·.entry j) i := fun i hi => by
    rw [entry_direction (Finset.mem_range.1 hi), mul_sub]
  rw [Row.dot_eq_sum width.le, Finset.sum_congr rfl split, Finset.sum_sub_distrib,
    h.sum_spread (Row.entry y) (·.entry j)]
  simp [hj]

theorem Canonical.holds_point (h : t.Canonical) : t.Holds t.point := fun l hl => by
  rw [Line.Holds, h.dot_point (h.width l hl)]
  exact h.sum_entry_basic hl Line.rhs

theorem Canonical.dot_entries_direction (h : t.Canonical) {l : Line} (hl : l ∈ t.lines) {j : Nat}
    (hj : j < t.columns) : Row.dot l.entries (t.direction j) = 0 := by
  rw [h.dot_direction (h.width l hl) hj, sub_eq_zero]
  exact (h.sum_entry_basic hl (·.entry j)).symm

/-- A solution that is zero on all columns that are not basic is the basic solution. -/
theorem Canonical.eq_value (h : t.Canonical) {y : Row} (holds : t.Holds y)
    (zero : ∀ j < t.columns, ¬t.IsBasic j → Row.entry y j = 0) {j : Nat} (hj : j < t.columns) :
    Row.entry y j = t.value j := by
  by_cases basic : t.IsBasic j
  · obtain ⟨l, hl, rfl⟩ := basic
    rw [h.value_basic hl, ← holds l hl, h.dot_eq_sum hl, Finset.sum_eq_single l.basic]
    · rw [h.diagonal l hl, one_mul]
    · intro i hi ne
      by_cases other : t.IsBasic i
      · obtain ⟨m, hm, rfl⟩ := other
        rw [h.entry_basic hl hm fun e => ne (e ▸ rfl), zero_mul]
      · rw [zero i (Finset.mem_range.1 hi) other, mul_zero]
    · exact fun out => absurd (Finset.mem_range.2 hj) out
  · rw [zero j hj basic, value_of_not_basic basic]

/-! ## Pivots -/

theorem lines_pivot {r : Nat} {line : Line} (at_r : t.lines[r]? = some line) (j : Nat) :
    (t.pivot r j).lines = t.lines.mapIdx fun i l =>
      if i = r then line.solvedFor j else l.eliminate j (line.solvedFor j) := by
  rw [pivot, at_r]

@[simp] theorem Line.basic_eliminate (l lead : Line) (j : Nat) : (l.eliminate j lead).basic = l.basic := by
  unfold eliminate
  simp only
  split <;> rfl

theorem Line.entry_solvedFor (l : Line) (j i : Nat) :
    (l.solvedFor j).entry i = (l.entry j)⁻¹ * l.entry i := Row.entry_scale _ _ _

theorem Line.entry_eliminate {l lead : Line} (width : l.entries.length = lead.entries.length)
    (j i : Nat) : (l.eliminate j lead).entry i = l.entry i - l.entry j * lead.entry i := by
  unfold eliminate
  simp only
  split
  · rename_i zero
    rw [zero, zero_mul, sub_zero]
  · exact Row.entry_subMul _ width _

theorem Line.rhs_eliminate (l lead : Line) (j : Nat) :
    (l.eliminate j lead).rhs = l.rhs - l.entry j * lead.rhs := by
  unfold eliminate
  simp only
  split
  · rename_i zero
    rw [zero, zero_mul, sub_zero]
  · rfl

theorem Line.length_eliminate {l lead : Line} (width : l.entries.length = lead.entries.length)
    (j : Nat) : (l.eliminate j lead).entries.length = l.entries.length := by
  unfold eliminate
  simp only
  split
  · rfl
  · exact Row.length_subMul _ width

/-- A line of a tableau after a pivot is the solved one or an older one with the column
eliminated. -/
theorem mem_lines_pivot {r : Nat} {line : Line} (at_r : t.lines[r]? = some line) {j : Nat} {l : Line} :
    l ∈ (t.pivot r j).lines ↔ l = line.solvedFor j ∨
      ∃ i m, i ≠ r ∧ t.lines[i]? = some m ∧ l = m.eliminate j (line.solvedFor j) := by
  obtain ⟨bound, -⟩ := List.getElem?_eq_some_iff.1 at_r
  rw [lines_pivot at_r, List.mem_mapIdx]
  constructor
  · rintro ⟨i, hi, rfl⟩
    by_cases e : i = r
    · exact .inl (if_pos e)
    · exact .inr ⟨i, _, e, List.getElem?_eq_getElem hi, if_neg e⟩
  · rintro (rfl | ⟨i, m, ne, at_i, rfl⟩)
    · exact ⟨r, bound, if_pos rfl⟩
    · obtain ⟨hi, rfl⟩ := List.getElem?_eq_some_iff.1 at_i
      exact ⟨i, hi, if_neg ne⟩

theorem Canonical.holds_pivot_iff (h : t.Canonical) {r j : Nat} {line : Line}
    (at_r : t.lines[r]? = some line) (nonzero : line.entry j ≠ 0) {y : Row} :
    (t.pivot r j).Holds y ↔ t.Holds y :=
  holds_pivot at_r nonzero fun l hl =>
    (h.width l hl).trans (h.width line (List.mem_of_getElem? at_r)).symm

/-- A line solved for a column has no coefficients for the basic columns of the other lines. -/
theorem Canonical.entry_solvedFor_basic (h : t.Canonical) {r i : Nat} {line m : Line}
    (at_r : t.lines[r]? = some line) (at_i : t.lines[i]? = some m) (ne : i ≠ r) (j : Nat) :
    (line.solvedFor j).entry m.basic = 0 := by
  rw [Line.entry_solvedFor, h.entry_basic_eq at_i at_r, if_neg ne.symm, mul_zero]

theorem Canonical.length_solvedFor (h : t.Canonical) {line : Line} (hl : line ∈ t.lines) (j : Nat) :
    (line.solvedFor j).entries.length = t.columns :=
  (Row.length_scale _ _).trans (h.width line hl)

/-- After a pivot no line has a coefficient for the basic column of another one. -/
theorem Canonical.apart_pivot (h : t.Canonical) {r j : Nat} {line : Line}
    (at_r : t.lines[r]? = some line) (nonzero : line.entry j ≠ 0) :
    (t.pivot r j).lines.Pairwise fun l m => l.entry m.basic = 0 ∧ m.entry l.basic = 0 := by
  have widths {i : Nat} {m : Line} (at_i : t.lines[i]? = some m) :
      m.entries.length = (line.solvedFor j).entries.length :=
    (h.width m (List.mem_of_getElem? at_i)).trans (h.length_solvedFor (List.mem_of_getElem? at_r) j).symm
  have lead : (line.solvedFor j).entry (line.solvedFor j).basic = 1 := by
    rw [Line.entry_solvedFor]
    exact inv_mul_cancel₀ nonzero
  rw [lines_pivot at_r, List.pairwise_iff_getElem]
  have apart := List.pairwise_iff_getElem.1 h.apart
  intro i k hi hk lt
  rw [List.length_mapIdx] at hi hk
  have at_i := List.getElem?_eq_getElem hi
  have at_k := List.getElem?_eq_getElem hk
  -- An eliminated line keeps its basic column, and loses its coefficient for the one that enters.
  have eliminated {i : Nat} {m : Line} (at_i : t.lines[i]? = some m) :
      (m.eliminate j (line.solvedFor j)).entry (line.solvedFor j).basic = 0 := by
    rw [Line.entry_eliminate (widths at_i), lead, mul_one]
    exact sub_self _
  rw [List.getElem_mapIdx, List.getElem_mapIdx]
  by_cases ei : i = r <;> by_cases ek : k = r
  · omega
  · rw [if_pos ei, if_neg ek, Line.basic_eliminate]
    exact ⟨h.entry_solvedFor_basic at_r at_k ek j, eliminated at_k⟩
  · rw [if_neg ei, if_pos ek, Line.basic_eliminate]
    exact ⟨eliminated at_i, h.entry_solvedFor_basic at_r at_i ei j⟩
  · rw [if_neg ei, if_neg ek, Line.basic_eliminate, Line.basic_eliminate,
      Line.entry_eliminate (widths at_i), Line.entry_eliminate (widths at_k),
      h.entry_solvedFor_basic at_r at_k ek, h.entry_solvedFor_basic at_r at_i ei, mul_zero, mul_zero,
      sub_zero, sub_zero]
    exact apart i k hi hk lt

theorem Canonical.pivot (h : t.Canonical) {r j : Nat} {line : Line}
    (at_r : t.lines[r]? = some line) (nonzero : line.entry j ≠ 0) (hj : j < t.columns) :
    (t.pivot r j).Canonical := by
  have lead := h.length_solvedFor (List.mem_of_getElem? at_r) j
  refine ⟨fun l hl => ?_, fun l hl => ?_, fun l hl => ?_, h.apart_pivot at_r nonzero⟩
  · rw [columns_pivot]
    rcases (mem_lines_pivot at_r).1 hl with rfl | ⟨i, m, -, at_i, rfl⟩
    · exact lead
    · have width := h.width m (List.mem_of_getElem? at_i)
      rw [Line.length_eliminate (width.trans lead.symm), width]
  · rw [columns_pivot]
    rcases (mem_lines_pivot at_r).1 hl with rfl | ⟨i, m, -, at_i, rfl⟩
    · exact hj
    · rw [Line.basic_eliminate]
      exact h.basic_lt m (List.mem_of_getElem? at_i)
  · rcases (mem_lines_pivot at_r).1 hl with rfl | ⟨i, m, ne, at_i, rfl⟩
    · rw [Line.entry_solvedFor]
      exact inv_mul_cancel₀ nonzero
    · have hm := List.mem_of_getElem? at_i
      rw [Line.basic_eliminate, Line.entry_eliminate ((h.width m hm).trans lead.symm),
        h.entry_solvedFor_basic at_r at_i ne, mul_zero, sub_zero, h.diagonal m hm]

/-- A pivot exchanges the basic column of its line for the column that enters. -/
theorem Canonical.isBasic_pivot (h : t.Canonical) {r j : Nat} {line : Line}
    (at_r : t.lines[r]? = some line) (i : Nat) :
    (t.pivot r j).IsBasic i ↔ i = j ∨ (t.IsBasic i ∧ i ≠ line.basic) := by
  constructor
  · rintro ⟨l, hl, rfl⟩
    rcases (mem_lines_pivot at_r).1 hl with rfl | ⟨i, m, ne, at_i, rfl⟩
    · exact .inl rfl
    · have hm := List.mem_of_getElem? at_i
      rw [Line.basic_eliminate]
      exact .inr ⟨⟨m, hm, rfl⟩, fun e => ne (h.position_eq at_i at_r e)⟩
  · rintro (rfl | ⟨⟨m, hm, rfl⟩, ne⟩)
    · exact ⟨line.solvedFor i, (mem_lines_pivot at_r).2 (.inl rfl), rfl⟩
    · obtain ⟨i, at_i⟩ := List.mem_iff_getElem?.1 hm
      refine ⟨m.eliminate j (line.solvedFor j), (mem_lines_pivot at_r).2
        (.inr ⟨i, m, fun e => ne ?_, at_i, rfl⟩), Line.basic_eliminate _ _ _⟩
      have same : m = line := Option.some.inj (at_i.symm.trans (e ▸ at_r))
      rw [same]

end Prevision.Tableau
