import Prevision.Polyhedron.Basic
import Prevision.Proofs.Linear.Vectors
import Prevision.Proofs.Order.Listings
import Prevision.Proofs.Polyhedron.Generated

/-!
# What descriptions stand for

A description by inequalities stands for the points that satisfy its rows
(`Description.Satisfies`), and one by generators for the mixtures of its rows
(`Description.Mixture`). As constraints and generators of cones the rows stand
for the vectors whose products with them are not negative
(`Description.Meets`) and for their combinations (`Description.Combines`).

* `Description.mem_flaggedRows`, `Description.mem_flaggedRows_ofRows`: the rows and whether they are linear;
* `Description.generated_iff_exists_combines`: what the rows generate are their combinations;
* `Description.mixture_iff_combines`: mixtures are the combinations at height one.
-/

namespace Prevision

open Row (toVector vectors)

namespace Description

/-- The point satisfies the rows, and the linear ones with equality. -/
structure Satisfies (d : Description) (x : Row) : Prop where
  width : x.length + 1 = d.width
  nonneg : ∀ (i : ℕ) (row : Row), d.rows[i]? = some row → 0 ≤ Row.eval row x
  linear : ∀ (i : ℕ) (row : Row), d.rows[i]? = some row → i ∈ d.linear → Row.eval row x = 0

/-- The products with the rows are not negative, and those with the linear ones are zero. -/
structure Meets (d : Description) (y : Row) : Prop where
  nonneg : ∀ (i : ℕ) (row : Row), d.rows[i]? = some row → 0 ≤ Row.dot row y
  linear : ∀ (i : ℕ) (row : Row), d.rows[i]? = some row → i ∈ d.linear → Row.dot row y = 0

/-- The vector is the combination of the rows with these weights, nonnegative but for the linear rows. -/
structure Combines (d : Description) (w : ℕ → ℚ) (y : Row) : Prop where
  nonneg : ∀ i < d.rows.length, i ∉ d.linear → 0 ≤ w i
  entries : ∀ j, Row.entry y j = ∑ i ∈ Finset.range d.rows.length, w i * Row.entry (d.rows.getD i []) j

/-- The point is the combination of the rows with these weights: a convex one of those with head
one, and nonnegative but for the linear rows. -/
structure Mixture (d : Description) (w : ℕ → ℚ) (x : Row) : Prop where
  nonneg : ∀ i < d.rows.length, i ∉ d.linear → 0 ≤ w i
  convex : ∑ i ∈ Finset.range d.rows.length with Row.entry (d.rows.getD i []) 0 = 1, w i = 1
  entries : ∀ j, Row.entry x j =
    ∑ i ∈ Finset.range d.rows.length, w i * Row.entry (d.rows.getD i []) (j + 1)

/-- Every row is a point or a direction, and every linear one a direction. -/
structure Homogeneous (d : Description) : Prop where
  head : ∀ row ∈ d.rows, Row.entry row 0 = 0 ∨ Row.entry row 0 = 1
  linear : ∀ (i : ℕ) (row : Row), d.rows[i]? = some row → i ∈ d.linear → Row.entry row 0 = 0

theorem width_of_fault?_eq_none {d : Description} (h : d.fault? = none) :
    d.width ≠ 0 ∧ ∀ row ∈ d.rows, row.length = d.width := by
  unfold fault? at h
  split at h
  · cases h
  · rename_i ne
    refine ⟨ne, fun row hr => ?_⟩
    split at h
    · cases h
    · rename_i none
      simpa using List.findIdx?_eq_none_iff.1 none row hr

theorem width_eq {d : Description} {n : ℕ} (some_row : d.rows ≠ [])
    (width : ∀ row ∈ d.rows, row.length = n) : d.width = n := by
  rw [Description.width, List.headD_eq_head?_getD, List.head?_eq_some_head some_row, Option.getD_some]
  exact width _ (List.head_mem some_row)

/-- Rows of one width, and linear indices of rows that are there, have no fault. -/
theorem fault?_eq_none {d : Description} {n : ℕ} (pos : n ≠ 0) (some_row : d.rows ≠ [])
    (width : ∀ row ∈ d.rows, row.length = n)
    (linear : ∀ i ∈ d.linear, i < d.rows.length) : d.fault? = none := by
  have same := width_eq some_row width
  have fits : d.rows.findIdx? (fun row => row.length != d.width) = none :=
    List.findIdx?_eq_none_iff.2 fun row hr => by rw [width row hr, same, bne_self_eq_false]
  have inside : d.linear.toList.find? (fun i => d.rows.length ≤ i) = none :=
    List.find?_eq_none.2 fun i hi => by simpa using linear i hi
  rw [fault?, if_neg (same ▸ pos), fits]
  exact congrArg (Option.map _) inside

theorem mem_flaggedRows {d : Description} {row : Row} {b : Bool} :
    (row, b) ∈ d.flaggedRows ↔ ∃ i, d.rows[i]? = some row ∧ d.linear.contains i = b := by
  simp only [flaggedRows, List.mem_map, Prod.exists, List.mem_zipIdx_iff_getElem?, Prod.mk.injEq]
  constructor
  · rintro ⟨_, i, at_i, rfl, flag⟩
    exact ⟨i, at_i, flag⟩
  · rintro ⟨i, at_i, flag⟩
    exact ⟨row, i, at_i, rfl, flag⟩

theorem meets_iff {d : Description} {y : Row} :
    d.Meets y ↔ ∀ c ∈ d.flaggedRows, 0 ≤ Row.dot c.1 y ∧ (c.2 = true → Row.dot c.1 y = 0) := by
  constructor
  · rintro ⟨nonneg, linear⟩ ⟨row, b⟩ mem
    obtain ⟨i, at_i, rfl⟩ := mem_flaggedRows.1 mem
    exact ⟨nonneg i row at_i, fun flag => linear i row at_i (SortedSet.contains_iff.1 flag)⟩
  · intro h
    have flagged {i : ℕ} {row : Row} (at_i : d.rows[i]? = some row) := h _ (mem_flaggedRows.2 ⟨i, at_i, rfl⟩)
    exact ⟨fun i row at_i => (flagged at_i).1,
      fun i row at_i mem => (flagged at_i).2 (SortedSet.contains_iff.2 mem)⟩

/-! ## Rows followed by linear rows -/

section OfRows

variable {form : Form} {rows lines : List Row}

theorem mem_linear_ofRows {i : ℕ} :
    i ∈ (ofRows form rows lines).linear ↔ rows.length ≤ i ∧ i < rows.length + lines.length := by
  rw [ofRows, SortedSet.mem_ofList, List.mem_map]
  constructor
  · rintro ⟨j, hj, rfl⟩
    have := List.mem_range.1 hj
    omega
  · intro ⟨low, high⟩
    exact ⟨i - rows.length, List.mem_range.2 (by omega), by omega⟩

theorem flaggedRows_ofRows (form : Form) (rows lines : List Row) :
    (ofRows form rows lines).flaggedRows =
      rows.map (fun r => (r, false)) ++ lines.map fun l => (l, true) := by
  refine List.ext_getElem? fun i => ?_
  rw [flaggedRows, List.getElem?_map, List.getElem?_zipIdx, Nat.zero_add]
  show (((rows ++ lines)[i]?.map _).map _) = _
  rcases Nat.lt_or_ge i rows.length with low | high
  · have ray : (ofRows form rows lines).linear.contains i = false := by
      rw [Bool.eq_false_iff, ne_eq, SortedSet.contains_iff, mem_linear_ofRows]
      omega
    rw [List.getElem?_append_left low, List.getElem?_append_left (by simpa using low),
      List.getElem?_map, Option.map_map]
    exact Option.map_congr fun r _ => Prod.ext rfl ray
  · rw [List.getElem?_append_right high, List.getElem?_append_right (by simpa using high), List.getElem?_map,
      List.length_map, Option.map_map]
    refine Option.map_congr fun l mem => Prod.ext rfl ?_
    have lt := (List.getElem?_eq_some_iff.1 mem).1
    show (ofRows form rows lines).linear.contains i = true
    exact SortedSet.contains_iff.2 (mem_linear_ofRows.2 ⟨high, by omega⟩)

theorem mem_flaggedRows_ofRows {row : Row} {b : Bool} :
    (row, b) ∈ (ofRows form rows lines).flaggedRows ↔
      row ∈ rows ∧ b = false ∨ row ∈ lines ∧ b = true := by
  rw [flaggedRows_ofRows, List.mem_append, List.mem_map, List.mem_map]
  simp only [Prod.mk.injEq, ← and_assoc, exists_and_right, exists_eq_right, eq_comm (a := b)]

theorem meets_ofRows_iff {y : Row} :
    (ofRows form rows lines).Meets y ↔
      (∀ r ∈ rows, 0 ≤ Row.dot r y) ∧ ∀ l ∈ lines, Row.dot l y = 0 := by
  rw [meets_iff]
  constructor
  · intro h
    exact ⟨fun r hr => (h _ (mem_flaggedRows_ofRows.2 (.inl ⟨hr, rfl⟩))).1,
      fun l hl => (h _ (mem_flaggedRows_ofRows.2 (.inr ⟨hl, rfl⟩))).2 rfl⟩
  · rintro ⟨rays, flat⟩ ⟨row, b⟩ mem
    rcases mem_flaggedRows_ofRows.1 mem with ⟨hr, rfl⟩ | ⟨hl, rfl⟩
    · exact ⟨rays row hr, fun e => absurd e Bool.false_ne_true⟩
    · exact ⟨(flat row hl).ge, fun _ => flat row hl⟩

theorem flaggedRows_of_no_line (form : Form) (rows : List Row) :
    (⟨form, rows, ∅⟩ : Description).flaggedRows = rows.map fun row => (row, false) := by
  conv_rhs => rw [← List.zipIdx_map_fst 0 rows, List.map_map]
  rfl

variable {n : ℕ}

theorem width_of_no_line (some_row : rows ≠ []) (width : ∀ row ∈ rows, row.length = n) :
    (⟨form, rows, ∅⟩ : Description).width = n := width_eq some_row width

theorem fault?_of_no_line (pos : n ≠ 0) (some_row : rows ≠ []) (width : ∀ row ∈ rows, row.length = n) :
    (⟨form, rows, ∅⟩ : Description).fault? = none :=
  fault?_eq_none pos some_row width fun _ mem => absurd mem SortedSet.not_mem_empty

end OfRows

end Description

/-! ## Combinations by weights -/

section Weights

variable {n : ℕ} {rows : List Row}

/-- The combination of rows with some weights, as a vector. -/
def combination (n : ℕ) (rows : List Row) (w : ℕ → ℚ) : Fin n → ℚ :=
  ∑ i ∈ Finset.range rows.length, w i • toVector n (rows.getD i [])

theorem combination_zero (n : ℕ) (rows : List Row) : combination n rows 0 = 0 :=
  Finset.sum_eq_zero fun _ _ => zero_smul ℚ _

theorem combination_add (n : ℕ) (rows : List Row) (w w' : ℕ → ℚ) :
    combination n rows (w + w') = combination n rows w + combination n rows w' := by
  rw [combination, combination, combination, ← Finset.sum_add_distrib]
  exact Finset.sum_congr rfl fun i _ => add_smul _ _ _

theorem combination_smul (n : ℕ) (rows : List Row) (c : ℚ) (w : ℕ → ℚ) :
    combination n rows (c • w) = c • combination n rows w := by
  rw [combination, combination, Finset.smul_sum]
  exact Finset.sum_congr rfl fun i _ => mul_smul c (w i) _

theorem combination_single {i : ℕ} {row : Row} (at_i : rows[i]? = some row) (c : ℚ) :
    combination n rows (Pi.single i c) = c • toVector n row := by
  have lt := (List.getElem?_eq_some_iff.1 at_i).1
  rw [combination, Finset.sum_eq_single i]
  · rw [Pi.single_eq_same, List.getD_eq_getElem?_getD, at_i, Option.getD_some]
  · intro j _ ne
    rw [Pi.single_eq_of_ne ne, zero_smul]
  · exact fun out => absurd (Finset.mem_range.2 lt) out

theorem combination_apply (rows : List Row) (w : ℕ → ℚ) (j : Fin n) : combination n rows w j =
    ∑ i ∈ Finset.range rows.length, w i * Row.entry (rows.getD i []) j := by
  rw [combination, Finset.sum_apply]
  rfl

/-- Past their width, rows combine to zero. -/
theorem sum_entry_eq_zero (width : ∀ r ∈ rows, r.length = n) (w : ℕ → ℚ) {j : ℕ} (ge : n ≤ j) :
    ∑ i ∈ Finset.range rows.length, w i * Row.entry (rows.getD i []) j = 0 := by
  refine Finset.sum_eq_zero fun i hi => ?_
  have lt := Finset.mem_range.1 hi
  rw [List.getD_eq_getElem _ _ lt, Row.entry_of_le ((width _ (List.getElem_mem lt)).trans_le ge), mul_zero]

/-- Among rows of height zero or one, those of height one give a combination its height. -/
theorem sum_head_eq (head : ∀ r ∈ rows, Row.entry r 0 = 0 ∨ Row.entry r 0 = 1) (w : ℕ → ℚ) :
    ∑ i ∈ Finset.range rows.length, w i * Row.entry (rows.getD i []) 0 =
      ∑ i ∈ Finset.range rows.length with Row.entry (rows.getD i []) 0 = 1, w i := by
  rw [Finset.sum_filter]
  refine Finset.sum_congr rfl fun i hi => ?_
  have lt := Finset.mem_range.1 hi
  rw [List.getD_eq_getElem _ _ lt]
  rcases head _ (List.getElem_mem lt) with zero | one
  · rw [zero, mul_zero, if_neg zero_ne_one]
  · rw [one, mul_one, if_pos rfl]

end Weights

namespace Description

variable {d : Description} {n : ℕ} {w : ℕ → ℚ}

/-- The vectors of the linear rows, or of the others. -/
def flaggedVectors (d : Description) (n : ℕ) (b : Bool) : Set (Fin n → ℚ) :=
  {v | ∃ row, (row, b) ∈ d.flaggedRows ∧ v = toVector n row}

theorem finite_flaggedVectors (d : Description) (n : ℕ) (b : Bool) : (d.flaggedVectors n b).Finite := by
  refine (d.rows.finite_toSet.image (toVector n)).subset ?_
  rintro _ ⟨row, mem, rfl⟩
  obtain ⟨i, at_i, -⟩ := mem_flaggedRows.1 mem
  exact Set.mem_image_of_mem _ (List.mem_of_getElem? at_i)

theorem flaggedVectors_ofRows_false (form : Form) (rows lines : List Row) :
    (ofRows form rows lines).flaggedVectors n false = vectors n rows := by
  ext v
  simp [flaggedVectors, vectors, mem_flaggedRows_ofRows]

theorem flaggedVectors_ofRows_true (form : Form) (rows lines : List Row) :
    (ofRows form rows lines).flaggedVectors n true = vectors n lines := by
  ext v
  simp [flaggedVectors, vectors, mem_flaggedRows_ofRows]

/-- What is in the span of the linear rows is a combination without the others. -/
theorem exists_weights_of_mem_span {l : Fin n → ℚ} (h : l ∈ Submodule.span ℚ (d.flaggedVectors n true)) :
    ∃ w : ℕ → ℚ, (∀ i ∉ d.linear, w i = 0) ∧ combination n d.rows w = l := by
  induction h using Submodule.span_induction with
  | mem l hl =>
    obtain ⟨row, mem, rfl⟩ := hl
    obtain ⟨i, at_i, flag⟩ := mem_flaggedRows.1 mem
    rw [SortedSet.contains_iff] at flag
    refine ⟨Pi.single i 1, fun j hj => Pi.single_eq_of_ne (fun e : j = i => hj (e ▸ flag)) _, ?_⟩
    rw [combination_single at_i, one_smul]
  | zero => exact ⟨0, fun _ _ => rfl, combination_zero _ _⟩
  | add u v _ _ hu hv =>
    obtain ⟨w, zero, rfl⟩ := hu
    obtain ⟨w', zero', rfl⟩ := hv
    refine ⟨w + w', fun i hi => ?_, combination_add _ _ _ _⟩
    rw [Pi.add_apply, zero i hi, zero' i hi, add_zero]
  | smul c u _ hu =>
    obtain ⟨w, zero, rfl⟩ := hu
    refine ⟨c • w, fun i hi => ?_, combination_smul _ _ _ _⟩
    rw [Pi.smul_apply, zero i hi, smul_zero]

/-- What the rows generate, by weights. -/
theorem generated_iff_exists_weights {y : Fin n → ℚ} :
    Generated (d.flaggedVectors n false) (Submodule.span ℚ (d.flaggedVectors n true)) y ↔
      ∃ w : ℕ → ℚ, (∀ i < d.rows.length, i ∉ d.linear → 0 ≤ w i) ∧ combination n d.rows w = y := by
  constructor
  · intro h
    induction h with
    | line hl =>
      obtain ⟨w, zero, same⟩ := exists_weights_of_mem_span hl
      exact ⟨w, fun i _ out => (zero i out).ge, same⟩
    | @addRay y r a _ hr ha ih =>
      obtain ⟨w, nonneg, rfl⟩ := ih
      obtain ⟨row, mem, rfl⟩ := hr
      obtain ⟨i, at_i, -⟩ := mem_flaggedRows.1 mem
      refine ⟨w + Pi.single i a, fun j hj out => ?_, ?_⟩
      · rw [Pi.add_apply]
        refine add_nonneg (nonneg j hj out) ?_
        rw [Pi.single_apply]
        split
        · exact ha
        · exact le_rfl
      · rw [combination_add, combination_single at_i]
  · rintro ⟨w, nonneg, rfl⟩
    refine Finset.sum_induction _ (Generated _ _) (fun _ _ => Generated.add) .zero fun i hi => ?_
    have lt := Finset.mem_range.1 hi
    have at_i := mem_flaggedRows.2 ⟨i, List.getElem?_eq_getElem lt, rfl⟩
    rw [List.getD_eq_getElem _ _ lt]
    cases flag : d.linear.contains i with
    | true =>
      rw [flag] at at_i
      exact .line (Submodule.smul_mem _ _ (Submodule.subset_span ⟨_, at_i, rfl⟩))
    | false =>
      rw [flag] at at_i
      have ray : toVector n d.rows[i] ∈ d.flaggedVectors n false := ⟨_, at_i, rfl⟩
      refine .ray ray (nonneg i lt fun mem => ?_)
      rw [SortedSet.contains_iff.2 mem] at flag
      cases flag

/-- Weights combine rows of one width to a vector if they do so on the coordinates. -/
theorem combines_iff (width : ∀ row ∈ d.rows, row.length = n) {y : Row} (hy : y.length = n) :
    d.Combines w y ↔
      (∀ i < d.rows.length, i ∉ d.linear → 0 ≤ w i) ∧ combination n d.rows w = toVector n y := by
  refine ⟨fun h => ⟨h.nonneg, funext fun j => ?_⟩, fun h => ⟨h.1, fun j => ?_⟩⟩
  · exact (combination_apply _ _ _).trans (h.entries j).symm
  · rcases Nat.lt_or_ge j n with lt | ge
    · exact (congrFun h.2 ⟨j, lt⟩).symm.trans (combination_apply _ _ _)
    · rw [Row.entry_of_le (hy.trans_le ge), sum_entry_eq_zero width w ge]

/-- What the rows generate are their combinations. -/
theorem generated_iff_exists_combines (width : ∀ row ∈ d.rows, row.length = n) {y : Row} (hy : y.length = n) :
    Generated (d.flaggedVectors n false) (Submodule.span ℚ (d.flaggedVectors n true)) (toVector n y) ↔
      ∃ w, d.Combines w y :=
  generated_iff_exists_weights.trans (exists_congr fun _ => (combines_iff width hy).symm)

/-- The mixtures of points and directions are the combinations at height one. -/
theorem mixture_iff_combines (homogeneous : d.Homogeneous) {x : Row} :
    d.Mixture w x ↔ d.Combines w (1 :: x) := by
  have head := sum_head_eq homogeneous.head w
  constructor
  · rintro ⟨nonneg, convex, entries⟩
    refine ⟨nonneg, fun j => ?_⟩
    cases j with
    | zero => exact (head.trans convex).symm
    | succ j => exact (Row.entry_cons_succ 1 x j).trans (entries j)
  · rintro ⟨nonneg, entries⟩
    exact ⟨nonneg, head.symm.trans (entries 0).symm,
      fun j => (Row.entry_cons_succ 1 x j).symm.trans (entries (j + 1))⟩

end Description

end Prevision
