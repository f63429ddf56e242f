import Prevision.Proofs.Polyhedron.Dropping

/-!
# There and back

Converted twice, a description gives back what it describes, whenever the one in
between can express it (`convert_convert`).

The rows that come out of inequalities generate the cone over the polyhedron,
which lies in the half space `t ≥ 0` (`exists_combines_iff_meets_and_nonneg`). So
generators come back if none of them is below height zero, and inequalities
always do. What has no point turns into a description without rows, which has
lost its width and cannot be converted (`convert_of_no_row`).
-/

namespace Prevision

open Enumeration (Generators)
open Row (toVector toForm)

namespace Description

variable {d : Description} {w : ℕ → ℚ} {y : Row}

/-- Generators that are not below height zero generate nothing below it. -/
theorem Combines.head_nonneg (combines : d.Combines w y) (upright : d.Upright) : 0 ≤ Row.entry y 0 := by
  rw [combines.entries]
  refine Finset.sum_nonneg fun i hi => ?_
  have lt := Finset.mem_range.1 hi
  rw [List.getD_eq_getElem _ _ lt]
  by_cases linear : i ∈ d.linear
  · rw [upright.linear i _ (List.getElem?_eq_getElem lt) linear, mul_zero]
  · exact mul_nonneg (combines.nonneg i lt linear) (upright.head _ (List.getElem_mem lt))

end Description

namespace DoubleDescription

variable {maxRays : ℕ} {d out : Description} {x y : Row}

/-! ## What can be converted again -/

theorem convert_of_no_row (none : d.rows = []) :
    convert maxRays d = .error (.malformedDescription .noColumns) := by
  have width : d.width = 0 := by rw [Description.width, none]; rfl
  rw [convert, Description.fault?, if_pos width]

theorem rows_described (g : Generators) (form : Form) : (g.described form).rows = [] ∨
    ∃ rays : List Row, g.described form = .ofRows form.opposite rays g.lines ∧
      ∀ r ∈ rays, ∃ r' ∈ g.rays, r.length = r'.length := by
  cases form with
  | inequalities =>
    by_cases some_ray : ∃ r ∈ g.rays, Row.entry r 0 ≠ 0
    · refine .inr ⟨_, slice_eq some_ray, fun row mem => ?_⟩
      obtain ⟨r, hr, rfl⟩ := List.mem_map.1 mem
      exact ⟨r, hr, length_atHeightOne r⟩
    · exact .inl (congrArg Description.rows (slice_eq_of_no_ray some_ray))
  | generators => exact .inr ⟨_, rfl, fun r hr => ⟨r, hr, rfl⟩⟩

/-- A conversion that leaves rows can be converted, and has the width of what it comes from. -/
theorem sound_of_convert (sound : d.fault? = none) (done : convert maxRays d = .ok out)
    (some_row : out.rows ≠ []) :
    out.fault? = none ∧ out.width = d.width := by
  obtain ⟨g, spans, rfl⟩ := exists_of_convert sound done
  obtain ⟨rays, same, widths⟩ := (rows_described g d.form).resolve_left some_row
  rw [same] at some_row ⊢
  have width : ∀ row ∈ (Description.ofRows d.form.opposite rays g.lines).rows, row.length = d.width := by
    intro row mem
    rcases List.mem_append.1 mem with ray | line
    · obtain ⟨r, hr, length⟩ := widths row ray
      rw [length, spans.rayWidth r hr]
    · exact spans.lineWidth row line
  refine ⟨Description.fault?_eq_none (Description.width_of_fault?_eq_none sound).1 some_row width
    fun i hi => ?_, Description.width_eq some_row width⟩
  have high := (Description.mem_linear_ofRows.1 hi).2
  rwa [← List.length_append] at high

/-! ## Cones over polyhedra -/

/-- What has a point turns into generators of the cone over it. -/
theorem exists_combines_iff_meets_and_nonneg (form : d.form = .inequalities) (sound : d.fault? = none)
    (some_point : ∃ x, d.Satisfies x) (done : convert maxRays d = .ok out) (hy : y.length = d.width) :
    (∃ w, out.Combines w y) ↔ d.Meets y ∧ 0 ≤ Row.entry y 0 := by
  have pos := Nat.pos_of_ne_zero (Description.width_of_fault?_eq_none sound).1
  obtain ⟨g, spans, rfl⟩ := exists_of_convert sound done
  obtain ⟨x, sat⟩ := some_point
  rw [form, show g.described .inequalities = _ from slice_eq (exists_ray_of_satisfies form pos spans sat),
    ← mem_cone_iff_meets form pos hy]
  exact combines_iff_mem_cone form pos spans hy

/-- A vector below height zero. -/
theorem exists_entry_neg {n : ℕ} (pos : 0 < n) : ∃ y : Row, y.length = n ∧ Row.entry y 0 < 0 := by
  refine ⟨Row.neg (Row.unit n 0), (Row.length_neg _).trans (Row.length_unit n 0), ?_⟩
  rw [Row.entry_neg, Row.entry_unit pos, if_pos rfl]
  exact neg_neg_of_pos one_pos

/-- Inequalities that nothing below height zero meets are rows that are there. -/
theorem rows_ne_nil_of_nonneg {n : ℕ} (pos : 0 < n)
    (nonneg : ∀ y : Row, y.length = n → d.Meets y → 0 ≤ Row.entry y 0) :
    d.rows ≠ [] := by
  intro none
  obtain ⟨y, hy, neg⟩ := exists_entry_neg pos
  refine absurd (nonneg y hy ⟨fun i row at_i => ?_, fun i row at_i => ?_⟩) (not_le.2 neg)
  · rw [none] at at_i
    cases at_i
  · rw [none] at at_i
    cases at_i

/-- A combination that is not zero is one of rows that are there. -/
theorem rows_ne_nil_of_combines {w : ℕ → ℚ} (combines : d.Combines w (1 :: x)) : d.rows ≠ [] := by
  intro none
  refine not_combines_point (d := d) (fun row mem => ?_) x ⟨w, combines⟩
  rw [none] at mem
  cases mem

/-- Generators above height zero generate a point. -/
theorem exists_combines_point (sound : d.fault? = none) {row : Row} (mem : row ∈ d.rows)
    (pos : 0 < Row.entry row 0) :
    ∃ x : Row, x.length + 1 = d.width ∧ ∃ w, d.Combines w (1 :: x) := by
  obtain ⟨some_column, width⟩ := Description.width_of_fault?_eq_none sound
  have one : toForm d.width (Row.unit d.width 0) ((Row.entry row 0)⁻¹ • toVector d.width row) = 1 := by
    rw [map_smul, Row.toForm_toVector _ (width row mem),
      Row.dot_unit (Nat.pos_of_ne_zero some_column), smul_eq_mul, inv_mul_cancel₀ pos.ne']
  obtain ⟨x, hx, same⟩ := exists_point one
  refine ⟨x, hx, (Description.generated_iff_exists_combines (y := 1 :: x) width hx).1 ?_⟩
  rw [same]
  obtain ⟨b, flagged⟩ := mem_rows_iff.1 mem
  have generator : toVector d.width row ∈ d.flaggedVectors d.width b := ⟨row, flagged, rfl⟩
  cases b with
  | false => exact .ray generator (inv_nonneg.2 pos.le)
  | true => exact .line (Submodule.smul_mem _ _ (Submodule.subset_span generator))

/-! ## Two conversions -/

/-- Neither of two conversions has too many rays alive. -/
theorem fits_of_fits (fits : (convert maxRays d >>= convert maxRays) ≠ .error (.enumerationLimit maxRays)) :
    convert maxRays d ≠ .error (.enumerationLimit maxRays) ∧
      ∀ out, convert maxRays d = .ok out → convert maxRays out ≠ .error (.enumerationLimit maxRays) := by
  refine ⟨fun first => fits ?_, fun out first second => fits ?_⟩
  · rw [first]
    rfl
  · rw [first]
    exact second

section Generators

variable (form : d.form = .generators) (sound : d.fault? = none) (upright : d.Upright)
  (fits : (convert maxRays d >>= convert maxRays) ≠ .error (.enumerationLimit maxRays))

include form sound upright fits

/-- The inequalities for generators that are not below height zero have no fault. -/
theorem exists_inequalities :
    ∃ mid, convert maxRays d = .ok mid ∧ mid.form = .inequalities ∧ mid.fault? = none ∧
    mid.width = d.width ∧ ∀ y : Row, y.length = d.width → ((∃ w, d.Combines w y) ↔ mid.Meets y) := by
  have pos := Nat.pos_of_ne_zero (Description.width_of_fault?_eq_none sound).1
  obtain ⟨mid, done, form', -, meets⟩ := exists_combines_iff_meets form sound (fits_of_fits fits).1
  have some_row : mid.rows ≠ [] := rows_ne_nil_of_nonneg pos fun y hy met => by
    obtain ⟨w, combines⟩ := (meets y hy).2 met
    exact combines.head_nonneg upright
  obtain ⟨sound', width⟩ := sound_of_convert sound done some_row
  exact ⟨mid, done, form', sound', width, meets⟩

/-- Generators with a point come back as generators of the same. -/
theorem generators_come_back (some_point : ∃ row ∈ d.rows, 0 < Row.entry row 0) :
    ∃ out, (convert maxRays d >>= convert maxRays) = .ok out ∧ out.form = .generators ∧ out.fault? = none ∧
        out.width = d.width ∧
      ∀ y : Row, y.length = d.width → ((∃ w, out.Combines w y) ↔ ∃ w, d.Combines w y) := by
  obtain ⟨mid, done, form', sound', width, meets⟩ := exists_inequalities form sound upright fits
  obtain ⟨row, mem, pos⟩ := some_point
  obtain ⟨x, hx, combines⟩ := exists_combines_point sound mem pos
  have sat : mid.Satisfies x := (satisfies_iff_meets (hx.trans width.symm)).2 ((meets (1 :: x) hx).1 combines)
  obtain ⟨out, done', form'', mixture, -⟩ :=
    satisfies_iff_mixture form' sound' ((fits_of_fits fits).2 mid done)
  have cone (y : Row) (hy : y.length = d.width) :=
    exists_combines_iff_meets_and_nonneg form' sound' ⟨x, sat⟩ done' (hy.trans width.symm)
  have some_row : out.rows ≠ [] := by
    obtain ⟨w, same⟩ := (cone (1 :: x) hx).2 ⟨(meets (1 :: x) hx).1 combines, zero_le_one⟩
    exact rows_ne_nil_of_combines same
  obtain ⟨sound'', width'⟩ := sound_of_convert sound' done' some_row
  refine ⟨out, by rw [done]; exact done', form'', sound'', width'.trans width, fun y hy => ?_⟩
  rw [cone y hy, ← meets y hy]
  exact and_iff_left_of_imp fun ⟨w, same⟩ => same.head_nonneg upright

/-- Generators without a point come back as none. -/
theorem generators_vanish (no_point : ¬∃ row ∈ d.rows, 0 < Row.entry row 0) :
    ∃ out, (convert maxRays d >>= convert maxRays) = .ok out ∧ out.rows = [] := by
  obtain ⟨mid, done, form', sound', width, meets⟩ := exists_inequalities form sound upright fits
  obtain ⟨out, done', -, -, empty⟩ := satisfies_iff_mixture form' sound' ((fits_of_fits fits).2 mid done)
  refine ⟨out, by rw [done]; exact done', empty fun ⟨x, sat⟩ => ?_⟩
  have flat : ∀ row ∈ d.rows, Row.entry row 0 = 0 := fun row mem =>
    le_antisymm (not_lt.1 fun pos => no_point ⟨row, mem, pos⟩) (upright.head row mem)
  have hx := sat.width.trans width
  exact not_combines_point flat x ((meets (1 :: x) hx).2 ((satisfies_iff_meets sat.width).1 sat))

end Generators

section Inequalities

variable (form : d.form = .inequalities) (sound : d.fault? = none)
  (fits : (convert maxRays d >>= convert maxRays) ≠ .error (.enumerationLimit maxRays))

include form sound fits

/-- Inequalities that some point satisfies come back as inequalities that the same points satisfy. -/
theorem inequalities_come_back (some_point : ∃ x, d.Satisfies x) :
    ∃ out, (convert maxRays d >>= convert maxRays) = .ok out ∧ out.form = .inequalities ∧ out.fault? = none ∧
      ∀ x, out.Satisfies x ↔ d.Satisfies x := by
  have pos := Nat.pos_of_ne_zero (Description.width_of_fault?_eq_none sound).1
  obtain ⟨mid, done, form', -, -⟩ := satisfies_iff_mixture form sound (fits_of_fits fits).1
  have cone (y : Row) (hy : y.length = d.width) :=
    exists_combines_iff_meets_and_nonneg form sound some_point done hy
  obtain ⟨x, sat⟩ := some_point
  have some_row : mid.rows ≠ [] := by
    obtain ⟨w, same⟩ := (cone (1 :: x) sat.width).2 ⟨(satisfies_iff_meets sat.width).1 sat, zero_le_one⟩
    exact rows_ne_nil_of_combines same
  obtain ⟨sound', width⟩ := sound_of_convert sound done some_row
  obtain ⟨out, done', form'', -, meets⟩ :=
    exists_combines_iff_meets form' sound' ((fits_of_fits fits).2 mid done)
  rw [width] at meets
  have some_row' : out.rows ≠ [] := rows_ne_nil_of_nonneg pos fun y hy met =>
    ((cone y hy).1 ((meets y hy).2 met)).2
  obtain ⟨sound'', width'⟩ := sound_of_convert sound' done' some_row'
  have width' := width'.trans width
  refine ⟨out, by rw [done]; exact done', form'', sound'', fun x => ?_⟩
  have same (hx : x.length + 1 = d.width) : out.Satisfies x ↔ d.Satisfies x := by
    rw [satisfies_iff_meets (hx.trans width'.symm), satisfies_iff_meets hx, ← meets (1 :: x) hx,
      cone (1 :: x) hx]
    exact and_iff_left zero_le_one
  exact ⟨fun sat => (same (sat.width.trans width')).1 sat, fun sat => (same sat.width).2 sat⟩

/-- Inequalities that no point satisfies turn into no rows, and these into nothing. -/
theorem inequalities_vanish (no_point : ¬∃ x, d.Satisfies x) :
    ∃ out, convert maxRays d = .ok out ∧ out.rows = [] ∧
      convert maxRays out = .error (.malformedDescription .noColumns) := by
  obtain ⟨out, done, -, -, empty⟩ := satisfies_iff_mixture form sound (fits_of_fits fits).1
  exact ⟨out, done, empty no_point, convert_of_no_row (empty no_point)⟩

end Inequalities

/-- Generators that are not below height zero come back as generators of the same, or as none if
all are at height zero. Inequalities come back as inequalities that the same points satisfy, or
fail for want of columns if no point does. -/
theorem convert_convert (sound : d.fault? = none)
    (fits : (convert maxRays d >>= convert maxRays) ≠ .error (.enumerationLimit maxRays)) :
    (d.form = .generators → d.Upright →
      ((∃ row ∈ d.rows, 0 < Row.entry row 0) →
        ∃ out, (convert maxRays d >>= convert maxRays) = .ok out ∧ out.form = .generators ∧
          out.fault? = none ∧
        out.width = d.width ∧
          ∀ y : Row, y.length = d.width → ((∃ w, out.Combines w y) ↔ ∃ w, d.Combines w y)) ∧
      ((¬∃ row ∈ d.rows, 0 < Row.entry row 0) →
        ∃ out, (convert maxRays d >>= convert maxRays) = .ok out ∧ out.rows = [])) ∧
    (d.form = .inequalities →
      ((∃ x, d.Satisfies x) →
        ∃ out, (convert maxRays d >>= convert maxRays) = .ok out ∧ out.form = .inequalities ∧
          out.fault? = none ∧
          ∀ x, out.Satisfies x ↔ d.Satisfies x) ∧
      ((¬∃ x, d.Satisfies x) →
        ∃ out, convert maxRays d = .ok out ∧ out.rows = [] ∧
          convert maxRays out = .error (.malformedDescription .noColumns))) :=
  ⟨fun form upright =>
    ⟨generators_come_back form sound upright fits, generators_vanish form sound upright fits⟩,
    fun form => ⟨inequalities_come_back form sound fits, inequalities_vanish form sound fits⟩⟩

theorem convert_convert_halfPlane_slab :
    halfPlane.fault? = none ∧ halfPlane.Upright ∧ (∃ row ∈ halfPlane.rows, 0 < Row.entry row 0) ∧
    (convert 4 halfPlane >>= convert 4) ≠ .error (.enumerationLimit 4) ∧
    (∃ out, (convert 4 halfPlane >>= convert 4) = .ok out ∧ out.form = .generators ∧
      out.fault? = none ∧ out.width = 3 ∧
      ∀ y : Row, y.length = 3 → ((∃ w, out.Combines w y) ↔ ∃ w, halfPlane.Combines w y)) ∧
    slab.fault? = none ∧ (∃ x, slab.Satisfies x) ∧
    (convert 4 slab >>= convert 4) ≠ .error (.enumerationLimit 4) ∧
    ∃ out, (convert 4 slab >>= convert 4) = .ok out ∧ out.form = .inequalities ∧ out.fault? = none ∧
      ∀ x, out.Satisfies x ↔ slab.Satisfies x := by
  have sound : halfPlane.fault? = none := by decide +kernel
  have fits : (convert 4 halfPlane >>= convert 4) ≠ .error (.enumerationLimit 4) := by decide +kernel
  have upright : halfPlane.Upright := by
    refine ⟨by decide +kernel, fun i row at_i linear => ?_⟩
    obtain rfl : i = 1 := SortedSet.mem_singleton.1 linear
    cases at_i
    rfl
  have point : ∃ row ∈ halfPlane.rows, 0 < Row.entry row 0 := by decide +kernel
  have sound' : slab.fault? = none := by decide +kernel
  have fits' : (convert 4 slab >>= convert 4) ≠ .error (.enumerationLimit 4) := by decide +kernel
  have point' : ∃ x, slab.Satisfies x :=
    ⟨[0, 0, 0], (satisfies_iff_meets rfl).2 (Description.meets_iff.2 (by decide +kernel))⟩
  exact ⟨sound, upright, point, fits, ((convert_convert sound fits).1 rfl upright).1 point, sound',
    point', fits', ((convert_convert sound' fits').2 rfl).1 point'⟩

end DoubleDescription

end Prevision
