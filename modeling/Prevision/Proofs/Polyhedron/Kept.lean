import Prevision.Proofs.Polyhedron.Dual
import Prevision.Proofs.Polyhedron.Redundancy

/-!
# The rows that a scan leaves

The rows that `redundantRows` does not list are the linear ones and, for every
facet of the cone, the first row that defines it (`keeps_without`).

They cut the cone out of the space that it spans (`mem_cone_of_kept`), and
along a point inside the cone every vector that meets the linear rows is
carried to one that meets them (`exists_raised_kept`). So they cut out the same
cone exactly if the rows that vanish on all of it vanish wherever the linear
rows do (`cone_without_iff`).
-/

namespace Prevision

open Enumeration (Generators generators generators_error generators_spec halfspaces)
open Row (toVector toForm vectors toVector_mem_vectors)

namespace Description

/-- The description by some rows, each with whether it is linear. -/
def ofFlagged (form : Form) (list : List (Row × Bool)) : Description :=
  ⟨form, list.map Prod.fst, .ofList ((list.zipIdx.filter fun c => c.1.2).map Prod.snd)⟩

/-- The description without the rows at some positions. -/
def without (d : Description) (drop : SortedSet ℕ) : Description :=
  .ofFlagged d.form ((d.flaggedRows.zipIdx.filter fun c => !drop.contains c.2).map Prod.fst)

/-- The description by the linear rows alone. -/
def linearPart (d : Description) : Description := .ofFlagged d.form (d.flaggedRows.filter fun c => c.2)

variable {d : Description} {form : Form} {list : List (Row × Bool)} {c : Row × Bool} {drop : SortedSet ℕ}

theorem contains_linear_ofFlagged (form : Form) {i : ℕ} (at_i : list[i]? = some c) :
    (ofFlagged form list).linear.contains i = c.2 := by
  rw [Bool.eq_iff_iff, SortedSet.contains_iff, ofFlagged, SortedSet.mem_ofList, List.mem_map]
  constructor
  · rintro ⟨⟨c', i⟩, mem, rfl⟩
    obtain ⟨at_i', flag⟩ := List.mem_filter.1 mem
    rw [List.mem_zipIdx_iff_getElem?, at_i, Option.some.injEq] at at_i'
    exact at_i' ▸ flag
  · intro flag
    exact ⟨(c, i), List.mem_filter.2 ⟨List.mem_zipIdx_iff_getElem?.2 at_i, flag⟩, rfl⟩

theorem flaggedRows_ofFlagged (form : Form) (list : List (Row × Bool)) :
    (ofFlagged form list).flaggedRows = list := by
  refine List.ext_getElem? fun i => ?_
  rw [flaggedRows, List.getElem?_map, List.getElem?_zipIdx, ofFlagged, List.getElem?_map]
  cases at_i : list[i]? with
  | none => rfl
  | some c =>
    have flag := contains_linear_ofFlagged form at_i
    rw [ofFlagged] at flag
    simp only [Option.map_some, Nat.zero_add, flag]

theorem mem_flaggedRows_without :
    c ∈ (d.without drop).flaggedRows ↔ ∃ i, d.flaggedRows[i]? = some c ∧ i ∉ drop := by
  rw [without, flaggedRows_ofFlagged, List.mem_map]
  constructor
  · rintro ⟨⟨c, i⟩, mem, rfl⟩
    obtain ⟨at_i, out⟩ := List.mem_filter.1 mem
    rw [Bool.not_eq_true', ← Bool.not_eq_true, SortedSet.contains_iff] at out
    exact ⟨i, List.mem_zipIdx_iff_getElem?.1 at_i, out⟩
  · rintro ⟨i, at_i, out⟩
    refine ⟨(c, i), List.mem_filter.2 ⟨List.mem_zipIdx_iff_getElem?.2 at_i, ?_⟩, rfl⟩
    rwa [Bool.not_eq_true', ← Bool.not_eq_true, SortedSet.contains_iff]

theorem mem_flaggedRows_linearPart : c ∈ d.linearPart.flaggedRows ↔ c ∈ d.flaggedRows ∧ c.2 = true := by
  rw [linearPart, flaggedRows_ofFlagged, List.mem_filter]

theorem meets_linearPart_iff {y : Row} :
    d.linearPart.Meets y ↔ ∀ row, (row, true) ∈ d.flaggedRows → Row.dot row y = 0 := by
  rw [meets_iff]
  constructor
  · intro h row mem
    exact (h _ (mem_flaggedRows_linearPart.2 ⟨mem, rfl⟩)).2 rfl
  · rintro h ⟨row, b⟩ mem
    obtain ⟨mem, rfl⟩ := mem_flaggedRows_linearPart.1 mem
    exact ⟨(h row mem).ge, fun _ => h row mem⟩

end Description

namespace DoubleDescription

variable {n : ℕ} {g : Generators} {cs kept : List (Row × Bool)} {u : Fin n → ℚ}

/-! ## Rows that are enough -/

/-- Some of the constraints of a cone, among them all equalities and, for every facet, a
constraint that defines it. -/
structure Keeps (g : Generators) (cs kept : List (Row × Bool)) : Prop where
  subset : ∀ c ∈ kept, c ∈ cs
  linear : ∀ row, (row, true) ∈ cs → (row, true) ∈ kept
  facet : ∀ row, (row, false) ∈ cs → definesFacet g row = true →
    ∃ row', (row', false) ∈ kept ∧ tightRays g.rays row = tightRays g.rays row'

variable (spans : g.Spans n cs) (keeps : Keeps g cs kept)

include spans in
theorem mem_cone_iff_generated : u ∈ (halfspaces n cs).cone cs.length ↔
    Generated (vectors n g.rays) (Submodule.span ℚ (vectors n g.lines)) u := by
  rw [spans.lines]
  exact ⟨spans.generates u, Halfspaces.mem_cone_of_generated spans.rays⟩

/-- A form that vanishes at the point inside vanishes on the whole cone. -/
theorem eq_zero_of_inner_eq_zero {row : Row} (mem : (row, false) ∈ cs)
    (zero : toForm n row (bounds_of_spans spans).inner = 0) (hu : u ∈ (halfspaces n cs).cone cs.length) :
    toForm n row u = 0 :=
  LinearMap.mem_ker.1 ((bounds_of_spans spans).spanned_le_ker ⟨row, mem, rfl⟩ zero
    ((mem_cone_iff_generated spans).1 hu).mem_span)

theorem inner_mem_cone : (bounds_of_spans spans).inner ∈ (halfspaces n cs).cone cs.length :=
  (mem_cone_iff_generated spans).2 (bounds_of_spans spans).generated_inner

/-- A multiple of the point inside, plus a vector that meets the equalities, is in the cone if the
inequalities are not negative on the sum. -/
theorem raised_mem_cone {k : ℚ} (part : ∀ c ∈ kept, c ∈ cs)
    (linear : ∀ row, (row, true) ∈ cs → toForm n row u = 0)
    (nonneg : ∀ a ∈ inequalityForms n kept, 0 ≤ a (k • (bounds_of_spans spans).inner + u)) :
    k • (bounds_of_spans spans).inner + u ∈ (halfspaces n kept).cone kept.length := by
  rw [mem_cone_iff_toForm]
  rintro ⟨row, equality⟩ mem
  cases equality with
  | false => exact ⟨nonneg _ ⟨row, mem, rfl⟩, fun e => absurd e Bool.false_ne_true⟩
  | true =>
    have mem := part _ mem
    have zero : toForm n row (k • (bounds_of_spans spans).inner + u) = 0 := by
      rw [map_add, map_smul, (mem_cone_iff_toForm.1 (inner_mem_cone spans) _ mem).2 rfl,
        linear row mem, smul_zero, add_zero]
    exact ⟨zero.ge, fun _ => zero⟩

include spans in
/-- A vector that meets the equalities is in the space that the cone spans, unless a form is
negative on it that vanishes on the whole cone. -/
theorem mem_spanned (linear : ∀ row, (row, true) ∈ cs → toForm n row u = 0)
    (flat : ∀ row, (row, false) ∈ cs → (∀ y ∈ (halfspaces n cs).cone cs.length, toForm n row y = 0) →
      0 ≤ toForm n row u) : u ∈ spanned (vectors n g.rays) (Submodule.span ℚ (vectors n g.lines)) := by
  have bounds := bounds_of_spans spans
  obtain ⟨k, -, nonneg⟩ := bounds.exists_raised (u := u) subset_rfl <| by
    rintro _ ⟨row, mem, rfl⟩ zero
    exact flat row mem fun y hy => eq_zero_of_inner_eq_zero spans mem zero hy
  have raised := raised_mem_cone spans (fun c hc => hc) linear nonneg
  rw [← add_sub_cancel_left (k • bounds.inner) u]
  exact Submodule.sub_mem _ ((mem_cone_iff_generated spans).1 raised).mem_span
    (Submodule.smul_mem _ k bounds.generated_inner.mem_span)

include spans keeps

/-- The constraints that are kept cut the cone out of the vectors that meet what holds with
equality throughout. -/
theorem mem_cone_of_kept (inside : u ∈ (halfspaces n kept).cone kept.length)
    (flat : ∀ row, (row, false) ∈ cs → (∀ y ∈ (halfspaces n cs).cone cs.length, toForm n row y = 0) →
      0 ≤ toForm n row u) : u ∈ (halfspaces n cs).cone cs.length := by
  rw [mem_cone_iff_toForm] at inside
  refine (mem_cone_iff_generated spans).2 ((bounds_of_spans spans).generated_of_facets ?_ ?_)
  · exact mem_spanned spans (fun row mem => (inside _ (keeps.linear row mem)).2 rfl) flat
  · rintro _ ⟨row, mem, rfl⟩ facet
    obtain ⟨row', mem', same⟩ := keeps.facet row mem ((definesFacet_iff_isFacet spans row).2 facet)
    exact ⟨toForm n row', ⟨row', keeps.subset _ mem', rfl⟩, facetSpan_eq_of_tightRays_eq spans same,
      (inside _ mem').1⟩

/-- Along the point inside the cone, a vector that meets the equalities is carried to one that
meets the constraints that are kept, if these define facets or are met already. -/
theorem exists_raised_kept (linear : ∀ row, (row, true) ∈ cs → toForm n row u = 0)
    (rest : ∀ row, (row, false) ∈ kept → definesFacet g row = true ∨ 0 ≤ toForm n row u) :
    ∃ k : ℚ, 0 < k ∧ k • (bounds_of_spans spans).inner + u ∈ (halfspaces n kept).cone kept.length := by
  have bounds := bounds_of_spans spans
  have part : inequalityForms n kept ⊆ inequalityForms n cs :=
    fun _ ⟨row, mem, e⟩ => ⟨row, keeps.subset _ mem, e⟩
  obtain ⟨k, pos, nonneg⟩ := bounds.exists_raised (u := u) part <| by
    rintro _ ⟨row, mem, rfl⟩ zero
    refine (rest row mem).resolve_left fun facet => ?_
    exact bounds.inner_ne_zero_of_isFacet ⟨row, keeps.subset _ mem, rfl⟩
      ((definesFacet_iff_isFacet spans row).1 facet) zero
  exact ⟨k, pos, raised_mem_cone spans keeps.subset linear nonneg⟩

omit spans keeps

/-! ## What a scan leaves -/

variable {d : Description}

/-- The rows that a scan reports. -/
def reportedRows (g : Generators) (d : Description) : SortedSet ℕ := .ofList (scanRows g d.flaggedRows 0 [])

theorem mem_reportedRows {i : ℕ} :
    i ∈ reportedRows g d ↔ ∃ c, d.flaggedRows[i]? = some c ∧ Reported g [] (d.flaggedRows.take i) c := by
  rw [reportedRows, SortedSet.mem_ofList, mem_scanRows]
  constructor
  · rintro ⟨j, c, at_j, rfl, reported⟩
    rw [Nat.zero_add]
    exact ⟨c, at_j, reported⟩
  · rintro ⟨c, at_i, reported⟩
    exact ⟨i, c, at_i, (Nat.zero_add i).symm, reported⟩

theorem definesFacet_of_mem_without {row : Row}
    (mem : (row, false) ∈ (d.without (reportedRows g d)).flaggedRows) :
    definesFacet g row = true := by
  obtain ⟨i, at_i, out⟩ := Description.mem_flaggedRows_without.1 mem
  by_contra none
  exact out (mem_reportedRows.2 ⟨_, at_i, rfl, fun facet => absurd facet none⟩)

theorem linear_mem_without {row : Row} (mem : (row, true) ∈ d.flaggedRows) :
    (row, true) ∈ (d.without (reportedRows g d)).flaggedRows := by
  obtain ⟨i, at_i⟩ := List.mem_iff_getElem?.1 mem
  refine Description.mem_flaggedRows_without.2 ⟨i, at_i, fun reported => ?_⟩
  obtain ⟨c, at_i', flag, -⟩ := mem_reportedRows.1 reported
  rw [at_i, Option.some.injEq] at at_i'
  rw [← at_i'] at flag
  cases flag

/-- Of the rows that define a facet, the first is left. -/
theorem exists_facet_without {row : Row} (mem : (row, false) ∈ d.flaggedRows)
    (facet : definesFacet g row = true) :
    ∃ row', (row', false) ∈ (d.without (reportedRows g d)).flaggedRows ∧
      tightRays g.rays row = tightRays g.rays row' := by
  classical
  have some_row : ∃ (j : ℕ) (row' : Row), d.flaggedRows[j]? = some (row', false) ∧
      tightRays g.rays row = tightRays g.rays row' := by
    obtain ⟨i, at_i⟩ := List.mem_iff_getElem?.1 mem
    exact ⟨i, row, at_i, rfl⟩
  obtain ⟨row', at_j, same⟩ := Nat.find_spec some_row
  refine ⟨row', Description.mem_flaggedRows_without.2 ⟨_, at_j, fun reported => ?_⟩, same⟩
  obtain ⟨c, at_j', -, met⟩ := mem_reportedRows.1 reported
  rw [at_j, Option.some.injEq] at at_j'
  subst at_j'
  have facet' : definesFacet g row' = true := by
    rw [definesFacet, ← same]
    exact facet
  obtain ⟨r, hr, same'⟩ := mem_tightSets.1 ((met facet').resolve_left List.not_mem_nil)
  obtain ⟨i, hi, at_i⟩ := List.mem_take_iff_getElem.1 hr
  rw [lt_min_iff] at hi
  exact Nat.find_min some_row hi.1 ⟨r, by rw [List.getElem?_eq_getElem hi.2, at_i], same.trans same'.symm⟩

/-- What a scan leaves keeps all facets, also among further constraints that are not scanned. -/
theorem keeps_without (more : List (Row × Bool)) :
    Keeps g (d.flaggedRows ++ more) ((d.without (reportedRows g d)).flaggedRows ++ more) := by
  refine ⟨fun c hc => ?_, fun row mem => ?_, fun row mem facet => ?_⟩
  · rcases List.mem_append.1 hc with left | right
    · obtain ⟨i, at_i, -⟩ := Description.mem_flaggedRows_without.1 left
      exact List.mem_append_left _ (List.mem_of_getElem? at_i)
    · exact List.mem_append_right _ right
  · rcases List.mem_append.1 mem with left | right
    · exact List.mem_append_left _ (linear_mem_without left)
    · exact List.mem_append_right _ right
  · rcases List.mem_append.1 mem with left | right
    · obtain ⟨row', mem', same⟩ := exists_facet_without left facet
      exact ⟨row', List.mem_append_left _ mem', same⟩
    · exact ⟨row, List.mem_append_right _ right, rfl⟩

/-- What a scan leaves cuts out the same cone, among vectors on which further constraints hold,
exactly if the rows that vanish on all of it vanish wherever the linear rows do. -/
theorem cone_without_iff {more : List (Row × Bool)} (spans : g.Spans n (d.flaggedRows ++ more))
    {P : (Fin n → ℚ) → Prop} (step : ∀ u, P u → ∀ y ∈ coneOf n (d.flaggedRows ++ more), P (y + u))
    (side : ∀ c ∈ more, c.2 = false ∧ ∀ u, P u → 0 ≤ toForm n c.1 u) :
    (∀ u, P u → (u ∈ coneOf n ((d.without (reportedRows g d)).flaggedRows ++ more) ↔
        u ∈ coneOf n (d.flaggedRows ++ more))) ↔
      ∀ row, (row, false) ∈ d.flaggedRows →
        (∀ u, P u → u ∈ coneOf n (d.flaggedRows ++ more) → toForm n row u = 0) →
        ∀ u, P u → (∀ row', (row', true) ∈ d.flaggedRows → toForm n row' u = 0) → toForm n row u = 0 := by
  have keeps := keeps_without (g := g) (d := d) more
  have linear {row : Row} (mem : (row, true) ∈ d.flaggedRows ++ more) : (row, true) ∈ d.flaggedRows :=
    (List.mem_append.1 mem).resolve_right fun right => Bool.noConfusion (side _ right).1
  constructor
  · intro same row mem zero u hu flat
    have rest (row' : Row) (mem' : (row', false) ∈ (d.without (reportedRows g d)).flaggedRows ++ more) :
        definesFacet g row' = true ∨ 0 ≤ toForm n row' u := by
      rcases List.mem_append.1 mem' with left | right
      · exact .inl (definesFacet_of_mem_without left)
      · exact .inr ((side (row', false) right).2 u hu)
    obtain ⟨k, pos, raised⟩ := exists_raised_kept spans keeps (fun row' mem' => flat row' (linear mem')) rest
    have inner : (bounds_of_spans spans).inner ∈ coneOf n (d.flaggedRows ++ more) := inner_mem_cone spans
    generalize (bounds_of_spans spans).inner = e at inner raised
    have here : P (k • e + u) := step u hu _ (Halfspaces.smul_mem_cone inner pos.le)
    have inside := (same _ here).1 raised
    have zero_here := zero _ here inside
    have zero_beyond := zero (e + (k • e + u)) (step _ here e inner) (Halfspaces.add_mem_cone inner inside)
    rw [map_add, zero_here, add_zero] at zero_beyond
    rwa [map_add, map_smul, zero_beyond, smul_zero, zero_add] at zero_here
  · intro implied u hu
    refine ⟨fun inside => mem_cone_of_kept spans keeps inside fun row mem zero => ?_, fun inside => ?_⟩
    · rcases List.mem_append.1 mem with left | right
      · refine (implied row left (fun v _ hv => zero v hv) u hu fun row' mem' => ?_).ge
        exact (mem_cone_iff_toForm.1 inside _ (List.mem_append_left _ (linear_mem_without mem'))).2 rfl
      · exact (side _ right).2 u hu
    · exact mem_cone_iff_toForm.2 fun c hc => mem_cone_iff_toForm.1 inside c (keeps.subset c hc)

end DoubleDescription

end Prevision
