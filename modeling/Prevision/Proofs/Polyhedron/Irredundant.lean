import Mathlib
import Prevision.Proofs.Polyhedron.Dropping
import Prevision.Proofs.Polyhedron.Minimal

/-!
# No row of a conversion can be left out

The rows that `convert` gives are minimal generators of a cone, or cut out the
cone dual to it. The other rows do not generate a row (`Minimal.not_generated_without`).
So without it generators give less, and, as some form separates the row from the
others, inequalities leave more (`cone_without_ssubset`, `ssubset_cone_without`).

Hence the rows of a conversion are all needed, no two of them are equal and its
linear rows are independent (`convert_irredundant`).
-/

namespace Prevision

open Enumeration (Generators generators halfspaces)
open Row (toVector toForm vectors toVector_mem_vectors)

namespace Description

variable {d : Description} {n : ℕ} {c : Row × Bool} {row : Row} {b : Bool} {i : ℕ}

/-- The vectors with `n` entries that the rows generate, or that they cut out. -/
def cone (d : Description) (n : ℕ) : Set Row :=
  match d.form with
  | .generators => {y | y.length = n ∧ ∃ w, d.Combines w y}
  | .inequalities => {y | y.length = n ∧ d.Meets y}

/-- Every row is needed: without it the cone is a smaller one if the rows generate it, and a
larger one if they cut it out. -/
structure Irredundant (d : Description) (n : ℕ) : Prop where
  generators : d.form = .generators → ∀ i < d.rows.length, (d.without (.singleton i)).cone n ⊂ d.cone n
  inequalities : d.form = .inequalities → ∀ i < d.rows.length, d.cone n ⊂ (d.without (.singleton i)).cone n
  nodup : d.rows.Nodup
  independent : LinearIndependent ℚ fun i : {i // i ∈ d.linear} => toVector n (d.rows.getD i [])

theorem mem_cone_generators (form : d.form = .generators) {y : Row} :
    y ∈ d.cone n ↔ y.length = n ∧ ∃ w, d.Combines w y := by
  rw [cone, form]
  rfl

theorem mem_cone_inequalities (form : d.form = .inequalities) {y : Row} :
    y ∈ d.cone n ↔ y.length = n ∧ d.Meets y := by
  rw [cone, form]
  rfl

/-! ## Without one row -/

theorem mem_flaggedRows_without_singleton (nodup : d.flaggedRows.Nodup) (at_i : d.flaggedRows[i]? = some c)
    {c' : Row × Bool} : c' ∈ (d.without (.singleton i)).flaggedRows ↔ c' ∈ d.flaggedRows ∧ c' ≠ c := by
  rw [mem_flaggedRows_without]
  constructor
  · rintro ⟨j, at_j, out⟩
    refine ⟨List.mem_of_getElem? at_j, fun same => out (SortedSet.mem_singleton.2 ?_)⟩
    refine (List.getElem?_inj (List.getElem?_eq_some_iff.1 at_j).1 nodup).1 ?_
    rw [at_j, at_i, same]
  · rintro ⟨mem, ne⟩
    obtain ⟨j, at_j⟩ := List.mem_iff_getElem?.1 mem
    refine ⟨j, at_j, fun same => ne ?_⟩
    rw [SortedSet.mem_singleton.1 same, at_i] at at_j
    exact (Option.some.inj at_j).symm

/-- The rows but one generate the vector. -/
def GeneratedWithout (d : Description) (n i : ℕ) (v : Fin n → ℚ) : Prop :=
  Generated ((d.without (.singleton i)).flaggedVectors n false)
    (Submodule.span ℚ ((d.without (.singleton i)).flaggedVectors n true)) v

/-- If the others do not generate a row, then less is generated without it. -/
theorem cone_without_ssubset (form : d.form = .generators) (width : ∀ row ∈ d.rows, row.length = n)
    (at_i : d.flaggedRows[i]? = some (row, b)) (alone : ¬d.GeneratedWithout n i (toVector n row)) :
    (d.without (.singleton i)).cone n ⊂ d.cone n := by
  have mem := List.mem_of_getElem? at_i
  have hr := width row (DoubleDescription.mem_rows_iff.2 ⟨b, mem⟩)
  have width' : ∀ row ∈ (d.without (.singleton i)).rows, row.length = n :=
    DoubleDescription.length_without width
  refine (Set.ssubset_iff_of_subset fun y hy => ?_).2 ⟨row, ?_, fun left => alone ?_⟩
  · obtain ⟨hy, combines⟩ := (mem_cone_generators (d := d.without _) form).1 hy
    rw [← generated_iff_exists_combines width' hy] at combines
    refine (mem_cone_generators form).2 ⟨hy, (generated_iff_exists_combines width hy).1 ?_⟩
    exact combines.trans (fun r hr => .of_mem (DoubleDescription.flaggedVectors_without_subset false hr))
      (Submodule.span_mono (DoubleDescription.flaggedVectors_without_subset true))
  · refine (mem_cone_generators form).2 ⟨hr, (generated_iff_exists_combines width hr).1 ?_⟩
    cases b with
    | false => exact .of_mem ⟨row, mem, rfl⟩
    | true => exact .line (Submodule.subset_span ⟨row, mem, rfl⟩)
  · exact (generated_iff_exists_combines width' hr).2 ((mem_cone_generators (d := d.without _) form).1 left).2

/-- If the others do not generate a row, then a form is negative on it that is not on these, so
more is cut out without it. -/
theorem ssubset_cone_without (form : d.form = .inequalities) (width : ∀ row ∈ d.rows, row.length = n)
    (at_i : d.flaggedRows[i]? = some (row, b)) (alone : ¬d.GeneratedWithout n i (toVector n row)) :
    d.cone n ⊂ (d.without (.singleton i)).cone n := by
  have mem := List.mem_of_getElem? at_i
  have hr := width row (DoubleDescription.mem_rows_iff.2 ⟨b, mem⟩)
  have width' : ∀ row ∈ (d.without (.singleton i)).rows, row.length = n :=
    DoubleDescription.length_without width
  rw [GeneratedWithout, Generated.iff_forms (finite_flaggedVectors _ n false)] at alone
  push Not at alone
  obtain ⟨a, rays, lines, negative⟩ := alone
  obtain ⟨z, hz, rfl⟩ := Row.exists_toForm_eq a
  refine (Set.ssubset_iff_of_subset fun y hy => ?_).2 ⟨z, ?_, fun met => ?_⟩
  · obtain ⟨hy, meets⟩ := (mem_cone_inequalities form).1 hy
    refine (mem_cone_inequalities (d := d.without _) form).2 ⟨hy, meets_iff.2 fun c hc => ?_⟩
    obtain ⟨j, at_j, -⟩ := mem_flaggedRows_without.1 hc
    exact meets_iff.1 meets c (List.mem_of_getElem? at_j)
  · exact (mem_cone_inequalities (d := d.without _) form).2
      ⟨hz, (DoubleDescription.meets_iff_toForm_nonneg width').2 ⟨rays, lines⟩⟩
  · have meets := ((mem_cone_inequalities form).1 met).2
    rw [Row.toForm_toVector z hr, Row.dot_comm] at negative
    exact absurd (meets_iff.1 meets _ mem).1 (not_le.2 negative)

end Description

/-! ## Minimal generators -/

variable {n k i : ℕ} {H : Halfspaces (Fin n → ℚ)} {rays lines : List Row} {form : Form} {row : Row} {b : Bool}

open Description (ofRows)

namespace Minimal

variable (minimal : Minimal H k rays lines)

include minimal

theorem width_ofRows : ∀ row ∈ (ofRows form rays lines).rows, row.length = n := fun row mem =>
  (List.mem_append.1 mem).elim (minimal.rayWidth row) (minimal.lineWidth row)

theorem nodup_flaggedRows : (ofRows form rays lines).flaggedRows.Nodup := by
  refine List.Nodup.of_map Prod.fst ?_
  rw [Description.flaggedRows_ofRows, List.map_append, List.map_map, List.map_map]
  exact (List.map_id rays).symm ▸ (List.map_id lines).symm ▸ minimal.nodup_append

/-- The other rows do not generate a row: not a ray, as it is extreme, and not a line, as it is
independent of the other lines. -/
theorem not_generated_without (at_i : (ofRows form rays lines).flaggedRows[i]? = some (row, b)) :
    ¬(ofRows form rays lines).GeneratedWithout n i (toVector n row) := by
  have others : ((ofRows form rays lines).without (.singleton i)).flaggedVectors n false ⊆ vectors n rays :=
    (DoubleDescription.flaggedVectors_without_subset false).trans
      (Description.flaggedVectors_ofRows_false form rays lines).subset
  have flat : Submodule.span ℚ (((ofRows form rays lines).without (.singleton i)).flaggedVectors n true) ≤
      H.lineality k := by
    rw [← minimal.span, ← Description.flaggedVectors_ofRows_true form rays]
    exact Submodule.span_mono (DoubleDescription.flaggedVectors_without_subset true)
  have left {c : Row × Bool} : c ∈ ((ofRows form rays lines).without (.singleton i)).flaggedRows ↔
      c ∈ (ofRows form rays lines).flaggedRows ∧ c ≠ (row, b) :=
    Description.mem_flaggedRows_without_singleton minimal.nodup_flaggedRows at_i
  have mem := Description.mem_flaggedRows_ofRows.1 (List.mem_of_getElem? at_i)
  cases b with
  | false =>
    have ray : row ∈ rays := (mem.resolve_right fun line => Bool.false_ne_true line.2).1
    refine fun generated => minimal.describes.not_generated (toVector_mem_vectors ray) others ?_
      (generated.trans (fun r hr => .of_mem hr) flat)
    rintro ⟨row', mem', same⟩
    obtain ⟨mem', ne⟩ := left.1 mem'
    have ray' : row' ∈ rays :=
      ((Description.mem_flaggedRows_ofRows.1 mem').resolve_right fun line => Bool.false_ne_true line.2).1
    exact ne (by rw [Row.toVector_injective (minimal.rayWidth _ ray) (minimal.rayWidth _ ray') same])
  | true =>
    have line : row ∈ lines := (mem.resolve_left fun ray => Bool.false_ne_true ray.2.symm).1
    refine minimal.describes.not_generated_line others flat (minimal.line_mem line) fun inSpan =>
      minimal.notMem_span_others line (Submodule.span_mono ?_ inSpan)
    rintro _ ⟨row', mem', rfl⟩
    obtain ⟨mem', ne⟩ := left.1 mem'
    have line' :=
      ((Description.mem_flaggedRows_ofRows.1 mem').resolve_left fun ray => Bool.false_ne_true ray.2.symm).1
    exact ⟨row', line', fun same => ne (by rw [same]), rfl⟩

/-- The linear rows are the lines, at positions past those of the rays. -/
theorem independent_ofRows : LinearIndependent ℚ fun i : {i // i ∈ (ofRows form rays lines).linear} =>
    toVector n ((ofRows form rays lines).rows.getD i []) := by
  have position (i : {i // i ∈ (ofRows form rays lines).linear}) := Description.mem_linear_ofRows.1 i.2
  let toLine (i : {i // i ∈ (ofRows form rays lines).linear}) : Fin lines.length :=
    ⟨i - rays.length, by have := position i; omega⟩
  have injective : Function.Injective toLine := fun i j same => by
    have := position i
    have := position j
    have : (i : ℕ) - rays.length = j - rays.length := congrArg Fin.val same
    exact Subtype.ext (by omega)
  have rows : (fun i : {i // i ∈ (ofRows form rays lines).linear} =>
      toVector n ((ofRows form rays lines).rows.getD i [])) =
        (fun i : Fin lines.length => toVector n lines[i]) ∘ toLine := by
    funext i
    obtain ⟨high, lt⟩ := position i
    show toVector n ((rays ++ lines).getD i []) = _
    rw [List.getD_eq_getElem _ _ (by rw [List.length_append]; exact lt), List.getElem_append_right high]
    rfl
  rw [rows]
  exact minimal.independent.comp toLine injective

theorem irredundant (form : Form) : (ofRows form rays lines).Irredundant n := by
  have at_row (i : ℕ) (lt : i < (ofRows form rays lines).rows.length) :
      ∃ row b, (ofRows form rays lines).flaggedRows[i]? = some (row, b) := by
    refine ⟨_, _, List.getElem?_eq_getElem (h := ?_)⟩
    rwa [Description.flaggedRows, List.length_map, List.length_zipIdx]
  refine ⟨fun generators i lt => ?_, fun inequalities i lt => ?_, minimal.nodup_append,
    minimal.independent_ofRows⟩
  · obtain ⟨row, b, at_i⟩ := at_row i lt
    exact Description.cone_without_ssubset generators minimal.width_ofRows at_i
      (minimal.not_generated_without at_i)
  · obtain ⟨row, b, at_i⟩ := at_row i lt
    exact Description.ssubset_cone_without inequalities minimal.width_ofRows at_i
      (minimal.not_generated_without at_i)

end Minimal

/-- No row is none too many. -/
theorem Description.irredundant_of_no_row (form : Form) (n : ℕ) : (ofRows form [] []).Irredundant n := by
  refine ⟨fun _ i lt => absurd lt i.not_lt_zero, fun _ i lt => absurd lt i.not_lt_zero, List.nodup_nil, ?_⟩
  have : IsEmpty {i // i ∈ (ofRows form [] []).linear} := ⟨fun i => SortedSet.not_mem_empty i.2⟩
  exact linearIndependent_empty_type

namespace DoubleDescription

/-- The description that comes out needs each of its rows. -/
theorem convert_irredundant {maxRays : ℕ} {d : Description} (sound : d.fault? = none)
    (fits : convert maxRays d ≠ .error (.enumerationLimit maxRays)) :
    ∃ out, convert maxRays d = .ok out ∧ out.form = d.form.opposite ∧ out.Irredundant d.width := by
  have pos := Nat.pos_of_ne_zero (Description.width_of_fault?_eq_none sound).1
  cases found : generators maxRays d.width (constraints d) with
  | error error => exact absurd (convert_eq_limit sound found) fits
  | ok g =>
    have minimal := (minimal_of_generators found).1
    refine ⟨g.described d.form, convert_eq sound found, g.form_described d.form, ?_⟩
    cases form : d.form with
    | generators => exact minimal.irredundant .inequalities
    | inequalities =>
      show (slice g).Irredundant d.width
      by_cases some_ray : ∃ r ∈ g.rays, Row.entry r 0 ≠ 0
      · rw [slice_eq some_ray]
        exact (minimal.atHeightOne fun r hr =>
          entry_ray_nonneg form pos (Enumeration.generators_spec found) hr).irredundant _
      · rw [slice_eq_of_no_ray some_ray]
        exact Description.irredundant_of_no_row .generators _

/-- An interval by three inequalities, the last of them implied by the others. -/
def longInterval : Description := ⟨.inequalities, [[0, 1], [1, -1], [2, -1]], ∅⟩

theorem convert_irredundant_longInterval : longInterval.fault? = none ∧
    convert 3 longInterval ≠ .error (.enumerationLimit 3) ∧ ∃ out, convert 3 longInterval = .ok out ∧
      out.form = .generators ∧ out.Irredundant 2 := by
  have sound : longInterval.fault? = none := by decide +kernel
  have fits : convert 3 longInterval ≠ .error (.enumerationLimit 3) := by decide +kernel
  exact ⟨sound, fits, convert_irredundant sound fits⟩

end DoubleDescription

end Prevision
