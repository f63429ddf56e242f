import Mathlib.LinearAlgebra.StdBasis
import Prevision.Proofs.Linear.Entries

/-!
# Rows as vectors

`toVector d r` is a row as a vector of the space with `d` coordinates, and
`toForm d h` the product with a row as a linear form on that space, so that
rows of one width can be reasoned about with the theory of linear spaces.

* `toForm_toVector`: the form of a row at the vector of another is their product;
* `toVector_injective`: rows of width `d` are told apart by their vectors;
* `exists_toVector_normalized`: a normalized row is a positive multiple of the row.
-/

namespace Prevision.Row

variable {d : ℕ}

/-- The first `d` entries of a row. -/
def toVector (d : ℕ) (r : Row) : Fin d → ℚ := fun i => entry r i

/-- The vectors of some rows. -/
def vectors (d : ℕ) (rows : List Row) : Set (Fin d → ℚ) := {v | ∃ r ∈ rows, v = toVector d r}

/-- The product with a row, as a form on `d` coordinates. -/
def toForm (d : ℕ) (h : Row) : (Fin d → ℚ) →ₗ[ℚ] ℚ where
  toFun y := ∑ i : Fin d, entry h i * y i
  map_add' y z := by
    rw [← Finset.sum_add_distrib]
    exact Finset.sum_congr rfl fun i _ => mul_add _ _ _
  map_smul' c y := by
    rw [RingHom.id_apply, smul_eq_mul, Finset.mul_sum]
    exact Finset.sum_congr rfl fun i _ => mul_left_comm _ _ _

theorem toVector_mem_vectors {rows : List Row} {r : Row} (h : r ∈ rows) : toVector d r ∈ vectors d rows :=
  ⟨r, h, rfl⟩

theorem vectors_append (d : ℕ) (rows rows' : List Row) :
    vectors d (rows ++ rows') = vectors d rows ∪ vectors d rows' := by
  ext v
  simp only [vectors, List.mem_append, or_and_right, exists_or]
  rfl

theorem vectors_cons (d : ℕ) (row : Row) (rows : List Row) :
    vectors d (row :: rows) = insert (toVector d row) (vectors d rows) := by
  ext v
  simp only [vectors, List.mem_cons, exists_eq_or_imp, Set.mem_ofPred_eq, Set.mem_insert_iff]

theorem vectors_mono {rows rows' : List Row} (sub : rows ⊆ rows') : vectors d rows ⊆ vectors d rows' := by
  rintro _ ⟨r, hr, rfl⟩
  exact toVector_mem_vectors (sub hr)

theorem toForm_apply (h : Row) (y : Fin d → ℚ) : toForm d h y = ∑ i : Fin d, entry h i * y i := rfl

theorem toForm_toVector (h : Row) {r : Row} (width : r.length = d) :
    toForm d h (toVector d r) = dot h r := by
  rw [toForm_apply, dot_comm, dot_eq_sum (n := d) width.le, ← Fin.sum_univ_eq_sum_range]
  exact Finset.sum_congr rfl fun i _ => mul_comm _ _

theorem toVector_injective {r s : Row} (hr : r.length = d) (hs : s.length = d)
    (h : toVector d r = toVector d s) : r = s :=
  eq_of_entry (hr.trans hs.symm) fun i hi => congrFun h ⟨i, hr ▸ hi⟩

theorem toVector_scale (c : Rat) (r : Row) : toVector d (scale c r) = c • toVector d r :=
  funext fun i => entry_scale c r i

theorem toVector_neg (r : Row) : toVector d (neg r) = -toVector d r := funext fun i => entry_neg r i

theorem toVector_subMul (c : Rat) {r s : Row} (width : r.length = s.length) :
    toVector d (subMul r c s) = toVector d r - c • toVector d s :=
  funext fun i => entry_subMul c width i

theorem toVector_ofFn (y : Fin d → ℚ) : toVector d (List.ofFn y) = y := by
  funext i
  rw [toVector, entry_eq_getElem (by simp)]
  exact List.getElem_ofFn _

theorem entry_ofFn_zero (y : Fin (d + 1) → ℚ) : entry (List.ofFn y) 0 = y 0 := congrFun (toVector_ofFn y) 0

theorem toForm_eq_dot (h : Row) (y : Fin d → ℚ) : toForm d h y = dot h (List.ofFn y) := by
  rw [← toForm_toVector h List.length_ofFn, toVector_ofFn]

theorem ofFn_toVector {r : Row} (width : r.length = d) : List.ofFn (toVector d r) = r :=
  toVector_injective List.length_ofFn width (toVector_ofFn _)

/-- A normalized row is a positive multiple of the row. -/
theorem exists_toVector_normalized (r : Row) :
    ∃ c : ℚ, 0 < c ∧ toVector d (normalized r) = c • toVector d r := by
  obtain ⟨c, hc, e⟩ := exists_normalized_eq_scale r
  exact ⟨c, hc, by rw [e, toVector_scale]⟩

theorem toVector_unit (i : Fin d) : toVector d (unit d i) = Pi.single i 1 := by
  funext j
  rw [toVector, entry_unit j.isLt, Pi.single_apply]
  exact if_congr Fin.ext_iff.symm rfl rfl

/-- The unit rows span the space. -/
theorem span_units (d : ℕ) :
    Submodule.span ℚ (vectors d ((List.range d).map (unit d))) = ⊤ := by
  rw [eq_top_iff, ← (Pi.basisFun ℚ (Fin d)).span_eq, Submodule.span_le]
  rintro _ ⟨i, rfl⟩
  rw [Pi.basisFun_apply]
  exact Submodule.subset_span
    ⟨unit d i, List.mem_map_of_mem (List.mem_range.2 i.isLt), (toVector_unit i).symm⟩

end Prevision.Row
