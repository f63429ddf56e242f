import Prevision.Proofs.Polyhedron.Dropping

/-!
# Rows that define facets

A row of a description by inequalities defines a facet if the part of the cone
over the polyhedron where it holds with equality has one dimension less than the
cone (`Description.DefinesFacet`). The rank of the rays that meet the row with
equality tells whether it does (`definesFacet_iff_definesFacet`), and the set of
these rays which facet it is (`tightRays_eq_iff_face_eq`).

So `redundantRows` lists the rows that define no facet or one that an earlier row
defines (`mem_reportedRows_iff`). If some point satisfies the rows strictly, but for
the linear ones, then the rows that are not listed are enough (`redundantRows_exact`).
-/

namespace Prevision

open Enumeration (Generators generators generators_spec)
open Row (toVector toForm vectors toVector_mem_vectors)

/-! ## Faces of a generated cone -/

section Faces

variable {V : Type*} [AddCommGroup V] [Module ℚ V] {R : Set V} {L : Submodule ℚ V}
    {a b : Module.Dual ℚ V} {y : V}

theorem span_generated (R : Set V) (L : Submodule ℚ V) :
    Submodule.span ℚ {y | Generated R L y} = spanned R L := by
  refine le_antisymm (Submodule.span_le.2 fun y hy => Generated.mem_span hy) (sup_le ?_ fun l hl => ?_)
  · exact Submodule.span_mono fun r hr => .of_mem hr
  · exact Submodule.subset_span (.line hl)

/-- What is generated where a form vanishes that is not negative on the rays is generated by the
rays on which it vanishes. -/
theorem Generated.face_of_form (h : Generated R L y) (rays : ∀ r ∈ R, 0 ≤ a r) (lines : ∀ l ∈ L, a l = 0)
    (zero : a y = 0) : Generated {r ∈ R | a r = 0} L y := by
  have face :=
    h.face (f := fun _ : Unit => a) (T := Set.univ) (fun _ _ => rays) (fun _ _ => lines) fun _ _ => zero
  exact face.mono fun r hr => ⟨hr.1, hr.2 () (Set.mem_univ ())⟩

/-- The face where a form vanishes spans what the rays on which it vanishes span, with the lines. -/
theorem span_face (rays : ∀ r ∈ R, 0 ≤ a r) (lines : ∀ l ∈ L, a l = 0) :
    Submodule.span ℚ {y | Generated R L y ∧ a y = 0} = facetSpan R L a := by
  refine le_antisymm (Submodule.span_le.2 ?_) (sup_le (Submodule.span_mono ?_) fun l hl => ?_)
  · rintro y ⟨generated, zero⟩
    exact (generated.face_of_form rays lines zero).mem_span
  · rintro r ⟨hr, zero⟩
    exact ⟨.of_mem hr, zero⟩
  · exact Submodule.subset_span ⟨.line hl, lines l hl⟩

/-- A form that vanishes on the rays of a face vanishes on the face. -/
theorem eq_zero_of_face (h : Generated R L y) (rays : ∀ r ∈ R, 0 ≤ a r) (lines : ∀ l ∈ L, a l = 0)
    (lines' : ∀ l ∈ L, b l = 0) (same : ∀ r ∈ R, a r = 0 → b r = 0) (zero : a y = 0) : b y = 0 := by
  have flat : spanned {r ∈ R | a r = 0} L ≤ LinearMap.ker b :=
    sup_le (Submodule.span_le.2 fun r hr => LinearMap.mem_ker.2 (same r hr.1 hr.2))
      fun l hl => LinearMap.mem_ker.2 (lines' l hl)
  exact LinearMap.mem_ker.1 (flat (h.face_of_form rays lines zero).mem_span)

/-- Two forms have the same face exactly if they vanish on the same rays. -/
theorem face_eq_iff (rays : ∀ r ∈ R, 0 ≤ a r) (lines : ∀ l ∈ L, a l = 0) (rays' : ∀ r ∈ R, 0 ≤ b r)
    (lines' : ∀ l ∈ L, b l = 0) :
    {y | Generated R L y ∧ a y = 0} = {y | Generated R L y ∧ b y = 0} ↔ ∀ r ∈ R, a r = 0 ↔ b r = 0 := by
  constructor
  · intro same r hr
    exact and_congr_right_iff.1 (Set.ext_iff.1 same r) (.of_mem hr)
  · intro same
    ext y
    refine and_congr_right fun h => ⟨fun zero => ?_, fun zero => ?_⟩
    · exact eq_zero_of_face h rays lines lines' (fun r hr => (same r hr).1) zero
    · exact eq_zero_of_face h rays' lines' lines (fun r hr => (same r hr).2) zero

end Faces

/-! ## Facets of a polyhedron -/

namespace Description

variable {d : Description} {n : ℕ} {row : Row} {b : Bool} {i : ℕ} {x : Row}

/-- The cone over the polyhedron: what meets the rows and is not below height zero. -/
def coneOver (d : Description) : Set (Fin d.width → ℚ) :=
  {y | d.Meets (List.ofFn y) ∧ 0 ≤ Row.entry (List.ofFn y) 0}

/-- Where a row holds with equality in the cone over the polyhedron. -/
def face (d : Description) (row : Row) : Set (Fin d.width → ℚ) :=
  {y ∈ d.coneOver | Row.dot row (List.ofFn y) = 0}

/-- The face of the row has one dimension less than the cone over the polyhedron. -/
def DefinesFacet (d : Description) (row : Row) : Prop :=
  Module.finrank ℚ (Submodule.span ℚ (d.face row)) + 1 = Module.finrank ℚ (Submodule.span ℚ d.coneOver)

/-- The point satisfies the linear rows with equality and all others strictly. -/
structure StrictlySatisfies (d : Description) (x : Row) : Prop where
  width : x.length + 1 = d.width
  positive : ∀ (i : ℕ) (row : Row), d.rows[i]? = some row → i ∉ d.linear → 0 < Row.eval row x
  linear : ∀ (i : ℕ) (row : Row), d.rows[i]? = some row → i ∈ d.linear → Row.eval row x = 0

theorem getElem?_flaggedRows :
    d.flaggedRows[i]? = some (row, b) ↔ d.rows[i]? = some row ∧ d.linear.contains i = b := by
  rw [flaggedRows, List.getElem?_map, List.getElem?_zipIdx, Nat.zero_add, Option.map_map,
    Option.map_eq_some_iff]
  constructor
  · rintro ⟨row', at_i, pair⟩
    cases pair
    exact ⟨at_i, rfl⟩
  · rintro ⟨at_i, rfl⟩
    exact ⟨row, at_i, rfl⟩

theorem contains_linear_eq_false : d.linear.contains i = false ↔ i ∉ d.linear := by
  rw [← Bool.not_eq_true, SortedSet.contains_iff]

end Description

namespace DoubleDescription

variable {d : Description} {g : Generators} {row row' : Row} {i : ℕ} {x : Row}

theorem mem_coneOver_iff (form : d.form = .inequalities) (pos : 0 < d.width) {y : Fin d.width → ℚ} :
    y ∈ d.coneOver ↔ y ∈ coneOf d.width (constraints d) := by
  conv_rhs => rw [← Row.toVector_ofFn y]
  exact (mem_cone_iff_meets form pos List.length_ofFn).symm

section Spans

variable (form : d.form = .inequalities) (pos : 0 < d.width) (spans : g.Spans d.width (constraints d))

include form pos spans

theorem coneOver_eq :
    d.coneOver = {y | Generated (vectors d.width g.rays) (Submodule.span ℚ (vectors d.width g.lines)) y} :=
  Set.ext fun _ => (mem_coneOver_iff form pos).trans (mem_cone_iff_generated spans)

theorem face_eq (row : Row) : d.face row = {y | Generated (vectors d.width g.rays)
    (Submodule.span ℚ (vectors d.width g.lines)) y ∧ toForm d.width row y = 0} := by
  rw [Description.face, coneOver_eq form pos spans]
  simp only [Row.toForm_eq_dot]
  rfl

omit pos spans in
theorem mem_constraints_of_mem_flaggedRows (mem : (row, false) ∈ d.flaggedRows) :
    (row, false) ∈ constraints d := by
  rw [constraints_eq form]
  exact List.mem_append_left _ mem

omit pos in
theorem ray_nonneg (mem : (row, false) ∈ d.flaggedRows) :
    ∀ r ∈ vectors d.width g.rays, 0 ≤ toForm d.width row r :=
  fun _ hr => (bounds_of_spans spans).rays _ hr _ ⟨row, mem_constraints_of_mem_flaggedRows form mem, rfl⟩

omit pos in
theorem line_eq_zero (mem : (row, false) ∈ d.flaggedRows) :
    ∀ l ∈ Submodule.span ℚ (vectors d.width g.lines), toForm d.width row l = 0 :=
  fun _ hl => (bounds_of_spans spans).lines _ hl _ ⟨row, mem_constraints_of_mem_flaggedRows form mem, rfl⟩

/-- The rank test recognizes the rows that define facets. -/
theorem definesFacet_iff_definesFacet (mem : (row, false) ∈ d.flaggedRows) :
    definesFacet g row = true ↔ d.DefinesFacet row := by
  rw [definesFacet_iff_isFacet spans, Bounds.IsFacet, Description.DefinesFacet, face_eq form pos spans,
    coneOver_eq form pos spans, span_generated,
    span_face (ray_nonneg form spans mem) (line_eq_zero form spans mem)]

omit form pos spans in
theorem mem_tightRays {rays : List Row} :
    i ∈ tightRays rays row ↔ ∃ r, rays[i]? = some r ∧ Row.dot row r = 0 := by
  rw [tightRays, List.mem_map]
  constructor
  · rintro ⟨⟨r, j⟩, mem, rfl⟩
    obtain ⟨at_j, zero⟩ := List.mem_filter.1 mem
    exact ⟨r, List.mem_zipIdx_iff_getElem?.1 at_j, beq_iff_eq.1 zero⟩
  · rintro ⟨r, at_i, zero⟩
    exact ⟨(r, i), List.mem_filter.2 ⟨List.mem_zipIdx_iff_getElem?.2 at_i, beq_iff_eq.2 zero⟩, rfl⟩

omit form pos spans in
theorem tightRays_eq_iff {rays : List Row} :
    tightRays rays row = tightRays rays row' ↔ ∀ r ∈ rays, Row.dot row r = 0 ↔ Row.dot row' r = 0 := by
  constructor
  · intro same r hr
    obtain ⟨i, at_i⟩ := List.mem_iff_getElem?.1 hr
    have here {row : Row} : i ∈ tightRays rays row ↔ Row.dot row r = 0 := by
      rw [mem_tightRays]
      exact ⟨fun ⟨r', at_i', zero⟩ => Option.some.inj (at_i.symm.trans at_i') ▸ zero,
        fun zero => ⟨r, at_i, zero⟩⟩
    rw [← here, ← here, same]
  · intro same
    rw [tightRays, tightRays]
    refine congrArg (List.map Prod.snd) (List.filter_congr fun r hr => Bool.eq_iff_iff.2 ?_)
    rw [beq_iff_eq, beq_iff_eq]
    exact same r.1 (List.fst_mem_of_mem_zipIdx hr)

/-- Rows meet the same rays with equality exactly if they have the same face. -/
theorem tightRays_eq_iff_face_eq (mem : (row, false) ∈ d.flaggedRows) (mem' : (row', false) ∈ d.flaggedRows) :
    tightRays g.rays row = tightRays g.rays row' ↔ d.face row = d.face row' := by
  rw [face_eq form pos spans, face_eq form pos spans, face_eq_iff (ray_nonneg form spans mem)
    (line_eq_zero form spans mem) (ray_nonneg form spans mem') (line_eq_zero form spans mem'),
    tightRays_eq_iff]
  have value (row : Row) {r : Row} (hr : r ∈ g.rays) :
      toForm d.width row (toVector d.width r) = Row.dot row r :=
    Row.toForm_toVector row (spans.rayWidth r hr)
  constructor
  · rintro same _ ⟨r, hr, rfl⟩
    rw [value row hr, value row' hr]
    exact same r hr
  · intro same r hr
    rw [← value row hr, ← value row' hr]
    exact same _ (toVector_mem_vectors hr)

/-- A row is reported exactly if it defines no facet or an earlier row defines the same one. -/
theorem mem_reportedRows_iff (at_i : d.rows[i]? = some row) (out : i ∉ d.linear) : i ∈ reportedRows g d ↔
    ¬d.DefinesFacet row ∨
    ∃ j < i, ∃ row', d.rows[j]? = some row' ∧ j ∉ d.linear ∧ d.DefinesFacet row' ∧
      d.face row' = d.face row := by
  have flagged {i : ℕ} {row : Row} (at_i : d.rows[i]? = some row) (out : i ∉ d.linear) :
      d.flaggedRows[i]? = some (row, false) :=
    Description.getElem?_flaggedRows.2 ⟨at_i, Description.contains_linear_eq_false.2 out⟩
  have mem := List.mem_of_getElem? (flagged at_i out)
  have facet := definesFacet_iff_definesFacet form pos spans mem
  rw [mem_reportedRows, flagged at_i out]
  constructor
  · rintro ⟨_, ⟨⟩, -, met⟩
    refine or_iff_not_imp_left.2 fun is_facet => ?_
    rw [not_not, ← facet] at is_facet
    obtain ⟨row', hr, same⟩ := mem_tightSets.1 ((met is_facet).resolve_left List.not_mem_nil)
    obtain ⟨j, lt, at_j⟩ := List.mem_take_iff_getElem.1 hr
    obtain ⟨before, inside⟩ := lt_min_iff.1 lt
    have mem' : (row', false) ∈ d.flaggedRows := List.mem_of_mem_take hr
    obtain ⟨at_j', flag⟩ := Description.getElem?_flaggedRows.1 (List.getElem?_eq_some_iff.2 ⟨inside, at_j⟩)
    refine ⟨j, before, row', at_j', Description.contains_linear_eq_false.1 flag, ?_,
      (tightRays_eq_iff_face_eq form pos spans mem' mem).1 same⟩
    rw [← definesFacet_iff_definesFacet form pos spans mem', definesFacet, same]
    exact is_facet
  · intro reported
    refine ⟨_, rfl, rfl, fun is_facet => .inr ?_⟩
    obtain ⟨j, lt, row', at_j, out', -, same⟩ := reported.resolve_left (not_not.2 (facet.1 is_facet))
    have at_j := flagged at_j out'
    refine mem_tightSets.2
      ⟨row', List.mem_take_iff_getElem.2 ⟨j, ?_, (List.getElem?_eq_some_iff.1 at_j).2⟩, ?_⟩
    · exact lt_min lt (List.getElem?_eq_some_iff.1 at_j).1
    · exact (tightRays_eq_iff_face_eq form pos spans (List.mem_of_getElem? at_j) mem).2 same

end Spans

/-- Only rows that are there and not linear are reported. -/
theorem exists_row_of_reported (mem : i ∈ reportedRows g d) :
    ∃ row, d.rows[i]? = some row ∧ i ∉ d.linear := by
  obtain ⟨⟨row, b⟩, at_i, rfl, -⟩ := mem_reportedRows.1 mem
  obtain ⟨at_i, flag⟩ := Description.getElem?_flaggedRows.1 at_i
  exact ⟨row, at_i, Description.contains_linear_eq_false.1 flag⟩

/-- A point satisfies the description without some rows exactly if it satisfies the others. -/
theorem meets_without_iff_forall {drop : SortedSet ℕ} : (d.without drop).Meets (1 :: x) ↔
    ∀ (i : ℕ) (row : Row), d.rows[i]? = some row → i ∉ drop →
      0 ≤ Row.eval row x ∧ (i ∈ d.linear → Row.eval row x = 0) := by
  rw [Description.meets_iff]
  constructor
  · intro h i row at_i out
    have met :=
      h _ (Description.mem_flaggedRows_without.2 ⟨i, Description.getElem?_flaggedRows.2 ⟨at_i, rfl⟩, out⟩)
    rw [dot_cons_one, SortedSet.contains_iff] at met
    exact met
  · rintro h ⟨row, b⟩ mem
    obtain ⟨i, at_i, out⟩ := Description.mem_flaggedRows_without.1 mem
    obtain ⟨here, rfl⟩ := Description.getElem?_flaggedRows.1 at_i
    rw [dot_cons_one, SortedSet.contains_iff]
    exact h i row here out

/-- With a point that satisfies the other rows strictly, no row that is not linear holds with
equality throughout, and the rows that are not reported are enough. -/
theorem satisfies_iff_unreported (form : d.form = .inequalities) (spans : g.Spans d.width (constraints d))
    (inside : ∃ x, d.StrictlySatisfies x) (width : x.length + 1 = d.width) :
    d.Satisfies x ↔ ∀ (i : ℕ) (row : Row), d.rows[i]? = some row → i ∉ reportedRows g d →
      0 ≤ Row.eval row x ∧ (i ∈ d.linear → Row.eval row x = 0) := by
  obtain ⟨p, strict⟩ := inside
  have sat : d.Satisfies p := by
    refine ⟨strict.width, fun i row at_i => ?_, strict.linear⟩
    by_cases linear : i ∈ d.linear
    · exact (strict.linear i row at_i linear).ge
    · exact (strict.positive i row at_i linear).le
  rw [constraints_eq form] at spans
  rw [← meets_without_iff_forall, satisfies_iff_meets width]
  refine ((meets_point_without_iff spans).2 (fun row mem zero => ?_) x width).symm
  obtain ⟨i, at_i, flag⟩ := Description.mem_flaggedRows.1 mem
  have positive := strict.positive i row at_i (Description.contains_linear_eq_false.1 flag)
  rw [← dot_cons_one, zero p strict.width ((satisfies_iff_meets strict.width).1 sat)] at positive
  exact absurd positive (lt_irrefl 0)

/-- Of inequalities that some point satisfies strictly, those are reported that define no facet of
the cone over the polyhedron or one that an earlier one defines. The others are enough, and no
linear row is reported. -/
theorem redundantRows_exact {maxRays : ℕ} (form : d.form = .inequalities) (sound : d.fault? = none)
    (fits : redundantRows maxRays d ≠ .error (.enumerationLimit maxRays))
    (inside : ∃ x, d.StrictlySatisfies x) :
    ∃ drop, redundantRows maxRays d = .ok drop ∧
      (∀ i row, d.rows[i]? = some row → i ∉ d.linear →
        (i ∈ drop ↔ ¬d.DefinesFacet row ∨ ∃ j < i, ∃ row',
        d.rows[j]? = some row' ∧ j ∉ d.linear ∧ d.DefinesFacet row' ∧ d.face row' = d.face row)) ∧
      (∀ i ∈ drop, i < d.rows.length ∧ i ∉ d.linear) ∧
      ∀ x : Row, x.length + 1 = d.width →
        (d.Satisfies x ↔ ∀ (i : ℕ) (row : Row), d.rows[i]? = some row → i ∉ drop →
        0 ≤ Row.eval row x ∧ (i ∈ d.linear → Row.eval row x = 0)) := by
  have pos := Nat.pos_of_ne_zero (Description.width_of_fault?_eq_none sound).1
  cases found : generators maxRays d.width (constraints d) with
  | error error => exact absurd (redundantRows_eq_limit sound found) fits
  | ok g =>
    have spans := generators_spec found
    refine ⟨_, redundantRows_eq sound found, fun i row => mem_reportedRows_iff form pos spans,
      fun i mem => ?_, fun x => satisfies_iff_unreported form spans inside⟩
    obtain ⟨row, at_i, out⟩ := exists_row_of_reported mem
    exact ⟨(List.getElem?_eq_some_iff.1 at_i).1, out⟩

/-- The points with `0 ≤ x ≤ 1` and `z = 0` and any `y`, with a second row for `x ≥ 0` and one
that others imply. -/
def channel : Description :=
  ⟨.inequalities, [[0, 0, 0, 1], [0, 1, 0, 0], [1, -1, 0, 0], [0, 1, 0, 5], [2, -1, 0, 0]], .ofList [0]⟩

theorem redundantRows_exact_channel : channel.fault? = none ∧
    redundantRows 4 channel ≠ .error (.enumerationLimit 4) ∧ (∃ x, channel.StrictlySatisfies x) ∧
    redundantRows 4 channel = .ok (.ofList [3, 4]) ∧
    (∀ i row, channel.rows[i]? = some row → i ∉ channel.linear →
      (i ∈ SortedSet.ofList [3, 4] ↔ ¬channel.DefinesFacet row ∨ ∃ j < i, ∃ row',
        channel.rows[j]? = some row' ∧ j ∉ channel.linear ∧ channel.DefinesFacet row' ∧
          channel.face row' = channel.face row)) ∧
    ∀ x : Row, x.length + 1 = 4 →
      (channel.Satisfies x ↔ ∀ (i : ℕ) (row : Row), channel.rows[i]? = some row →
      i ∉ SortedSet.ofList [3, 4] → 0 ≤ Row.eval row x ∧ (i ∈ channel.linear → Row.eval row x = 0)) := by
  have sound : channel.fault? = none := by decide +kernel
  have fits : redundantRows 4 channel ≠ .error (.enumerationLimit 4) := by decide +kernel
  have listed : redundantRows 4 channel = .ok (.ofList [3, 4]) := by decide +kernel
  have values : ∀ c ∈ channel.flaggedRows, (c.2 = false → 0 < Row.eval c.1 [1 / 2, 0, 0]) ∧
      (c.2 = true → Row.eval c.1 [1 / 2, 0, 0] = 0) := by decide +kernel
  have inside : channel.StrictlySatisfies [1 / 2, 0, 0] :=
    ⟨rfl, fun i row at_i out => (values _ (Description.mem_flaggedRows.2 ⟨i, at_i, rfl⟩)).1
        (Description.contains_linear_eq_false.2 out),
      fun i row at_i mem =>
        (values _ (Description.mem_flaggedRows.2 ⟨i, at_i, rfl⟩)).2 (SortedSet.contains_iff.2 mem)⟩
  obtain ⟨drop, done, reported, -, points⟩ := redundantRows_exact rfl sound fits ⟨_, inside⟩
  cases listed.symm.trans done
  exact ⟨sound, fits, ⟨_, inside⟩, listed, reported, points⟩

end DoubleDescription

end Prevision
