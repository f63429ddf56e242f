import Prevision.Polyhedron.Enumeration
import Prevision.Proofs.Linear.Independence
import Prevision.Proofs.Polyhedron.Cut

/-!
# What the enumeration keeps

`Valid d cs k e` relates the state `e` of the enumeration after `k` of the
constraints `cs` to the cone that these cut out of the space with `d`
coordinates: its lines span the lines in the cone, its rays describe the cone,
and every ray comes with exactly the constraints that it meets with equality.

* `valid_start`: the whole space is described;
* `Valid.splitLine`, `Valid.splitRays`, `Valid.add`: every step keeps this;
* `addAll_induction`, `exists_of_generators`: what every step keeps holds of the generators found;
* `generators_spec`, `generators_describe`: the generators found generate the cone and nothing else, and
  its rays are extreme.
-/

namespace Prevision.Enumeration

open Row (toVector toForm vectors toVector_mem_vectors)

variable {d k : ℕ} {cs : List (Row × Bool)} {e : Enumeration} {h : Row} {equality : Bool}

/-- Constraints, each with whether it is an equality, on the vectors with `d` coordinates. -/
def halfspaces (d : ℕ) (cs : List (Row × Bool)) : Halfspaces (Fin d → ℚ) :=
  ⟨fun i => toForm d (cs.getD i ([], false)).1, fun i => (cs.getD i ([], false)).2 = true⟩

/-- The state describes the cone of the first `k` constraints. -/
structure Valid (d : ℕ) (cs : List (Row × Bool)) (k : ℕ) (e : Enumeration) : Prop where
  constraints : e.constraints = (cs.take k).map Prod.fst
  lineWidth : ∀ l ∈ e.lines, l.length = d
  rayWidth : ∀ r ∈ e.rays, r.vector.length = d
  tight : ∀ r ∈ e.rays, ∀ i, i ∈ r.tight ↔ i ∈ (halfspaces d cs).tight k (toVector d r.vector)
  nodup : (e.rays.map ExtremeRay.vector).Nodup
  lines : Submodule.span ℚ (vectors d e.lines) = (halfspaces d cs).lineality k
  describes : (halfspaces d cs).Describes k (vectors d (e.rays.map ExtremeRay.vector))

theorem mem_vectors_rays {rays : List ExtremeRay} {v : Fin d → ℚ} :
    v ∈ vectors d (rays.map ExtremeRay.vector) ↔ ∃ r ∈ rays, v = toVector d r.vector := by
  constructor
  · rintro ⟨_, mem, rfl⟩
    obtain ⟨r, hr, rfl⟩ := List.mem_map.1 mem
    exact ⟨r, hr, rfl⟩
  · rintro ⟨r, hr, rfl⟩
    exact toVector_mem_vectors (List.mem_map_of_mem hr)

theorem valid_start (d : ℕ) (cs : List (Row × Bool)) : Valid d cs 0 (start d) := by
  refine ⟨rfl, fun l hl => ?_, fun r hr => absurd hr List.not_mem_nil,
    fun r hr => absurd hr List.not_mem_nil, List.nodup_nil, ?_, ?_⟩
  · obtain ⟨i, -, rfl⟩ := List.mem_map.1 hl
    exact Row.length_unit d i
  · refine (Row.span_units d).trans (Eq.symm (eq_top_iff.2 fun v _ i hi => ?_))
    exact absurd hi (Nat.not_lt_zero i)
  · have none : vectors d ((start d).rays.map ExtremeRay.vector) = ∅ :=
      Set.eq_empty_iff_forall_notMem.2 fun v ⟨r, hr, _⟩ => absurd hr List.not_mem_nil
    rw [none]
    exact Halfspaces.describes_zero _

section Step

variable (at_k : cs[k]? = some (h, equality))

include at_k

theorem form_halfspaces : (halfspaces d cs).form k = toForm d h := by
  show toForm d (cs.getD k ([], false)).1 = _
  rw [List.getD_eq_getElem?_getD, at_k, Option.getD_some]

theorem equality_halfspaces : (halfspaces d cs).equality k ↔ equality = true := by
  show (cs.getD k ([], false)).2 = true ↔ _
  rw [List.getD_eq_getElem?_getD, at_k, Option.getD_some]

theorem form_toVector {r : Row} (width : r.length = d) :
    (halfspaces d cs).form k (toVector d r) = Row.dot h r := by
  rw [form_halfspaces at_k, Row.toForm_toVector h width]

theorem take_succ (constraints : e.constraints = (cs.take k).map Prod.fst) :
    e.constraints ++ [h] = (cs.take (k + 1)).map Prod.fst := by
  rw [List.take_add_one, at_k, List.map_append, constraints]
  rfl

end Step

theorem Valid.length_constraints (valid : Valid d cs k e) (hk : k ≤ cs.length) :
    e.constraints.length = k := by
  rw [valid.constraints, List.length_map, List.length_take, min_eq_left hk]

/-! ## A constraint that is not zero on a line -/

theorem toVector_intoPlane {lead v : Row} (at_k : cs[k]? = some (h, equality)) (hl : lead.length = d)
    (hv : v.length = d) : toVector d (intoPlane h lead v) =
      (halfspaces d cs).slide k (toVector d lead) (toVector d v) := by
  rw [intoPlane, Row.toVector_subMul _ (hv.trans hl.symm), Halfspaces.slide_apply, form_toVector at_k hl,
    form_toVector at_k hv, div_eq_mul_inv]

theorem length_intoPlane {lead v : Row} (hl : lead.length = d) (hv : v.length = d) :
    (intoPlane h lead v).length = d := by
  rw [intoPlane, Row.length_subMul _ (hv.trans hl.symm), hv]

theorem oriented_cases (h line : Row) : oriented h line = line ∨ oriented h line = Row.neg line := by
  unfold oriented
  split
  · exact .inr rfl
  · exact .inl rfl

theorem dot_oriented_pos {line : Row} (ne : Row.dot h line ≠ 0) : 0 < Row.dot h (oriented h line) := by
  unfold oriented
  split
  · rename_i below
    rw [Row.dot_comm, Row.dot_neg, Row.dot_comm]
    exact neg_pos.2 below
  · rename_i not_below
    exact lt_of_le_of_ne (not_lt.1 not_below) ne.symm

/-- What a line must be for the others to be moved along it. -/
structure Leads (d : ℕ) (cs : List (Row × Bool)) (k : ℕ) (line lead : Row) : Prop where
  width : lead.length = d
  member : toVector d lead ∈ (halfspaces d cs).lineality k
  positive : 0 < (halfspaces d cs).form k (toVector d lead)
  multiple : ∃ c : ℚ, toVector d line = c • toVector d lead

theorem Valid.line_mem (valid : Valid d cs k e) {l : Row} (hl : l ∈ e.lines) :
    toVector d l ∈ (halfspaces d cs).lineality k := by
  rw [← valid.lines]
  exact Submodule.subset_span (toVector_mem_vectors hl)

theorem Valid.leads (valid : Valid d cs k e) (at_k : cs[k]? = some (h, equality)) {line : Row}
    (hl : line ∈ e.lines) (ne : Row.dot h line ≠ 0) : Leads d cs k line (oriented h line) := by
  have pos := dot_oriented_pos ne
  have width := valid.lineWidth line hl
  have member := valid.line_mem hl
  rcases oriented_cases h line with same | opposite
  · rw [same] at pos ⊢
    exact ⟨width, member, by rwa [form_toVector at_k width], 1, (one_smul ℚ _).symm⟩
  · rw [opposite] at pos ⊢
    have width' : (Row.neg line).length = d := (Row.length_neg line).trans width
    refine ⟨width', ?_, by rwa [form_toVector at_k width'], -1, ?_⟩
    · rw [Row.toVector_neg]
      exact Submodule.neg_mem _ member
    · rw [Row.toVector_neg, neg_smul, one_smul, neg_neg]

/-- The lines that are left, moved into the plane, span the lines in the cut cone. -/
theorem Valid.span_others (valid : Valid d cs k e) (at_k : cs[k]? = some (h, equality)) {i : ℕ}
    (hi : i < e.lines.length) {lead : Row} (leads : Leads d cs k e.lines[i] lead) :
    Submodule.span ℚ (vectors d ((e.lines.eraseIdx i).map (intoPlane h lead))) =
      (halfspaces d cs).lineality (k + 1) := by
  refine le_antisymm (Submodule.span_le.2 ?_) fun v hv => ?_
  · rintro _ ⟨_, mem, rfl⟩
    obtain ⟨l, hl, rfl⟩ := List.mem_map.1 mem
    have hl := List.mem_of_mem_eraseIdx hl
    rw [toVector_intoPlane at_k leads.width (valid.lineWidth l hl)]
    exact Halfspaces.slide_mem_lineality leads.member leads.positive (valid.line_mem hl)
  · obtain ⟨line, zero⟩ := Halfspaces.mem_lineality_succ.1 hv
    rw [← Halfspaces.slide_of_form_eq_zero (l := toVector d lead) zero]
    rw [← valid.lines] at line
    have image := Submodule.mem_map_of_mem (f := (halfspaces d cs).slide k (toVector d lead)) line
    rw [Submodule.map_span] at image
    refine Submodule.span_le.2 ?_ image
    rintro _ ⟨_, ⟨l, hl, rfl⟩, rfl⟩
    obtain ⟨j, hj, rfl⟩ := List.mem_iff_getElem.1 hl
    rcases eq_or_ne j i with rfl | apart
    · obtain ⟨c, hc⟩ := leads.multiple
      rw [hc, map_smul, Halfspaces.slide_self leads.positive, smul_zero]
      exact Submodule.zero_mem _
    · rw [← toVector_intoPlane at_k leads.width (valid.lineWidth _ hl)]
      refine Submodule.subset_span (toVector_mem_vectors (List.mem_map_of_mem ?_))
      exact List.mem_eraseIdx_iff_getElem.2 ⟨j, hj, apart, rfl⟩

/-- A moved ray is a positive multiple of the ray slid along the line. -/
theorem Valid.exists_moved (valid : Valid d cs k e) (at_k : cs[k]? = some (h, equality)) {line lead : Row}
    (leads : Leads d cs k line lead) {r : ExtremeRay} (hr : r ∈ e.rays) : ∃ c : ℚ, 0 < c ∧
      toVector d (Row.normalized (intoPlane h lead r.vector)) =
        c • (halfspaces d cs).slide k (toVector d lead) (toVector d r.vector) := by
  rw [← toVector_intoPlane at_k leads.width (valid.rayWidth r hr)]
  exact Row.exists_toVector_normalized _

/-- The ray moved along a line into the plane, on vectors. -/
def moveVector (d : ℕ) (h lead : Row) (v : Fin d → ℚ) : Fin d → ℚ :=
  toVector d (Row.normalized (intoPlane h lead (List.ofFn v)))

theorem moveVector_toVector {lead r : Row} (width : r.length = d) :
    moveVector d h lead (toVector d r) = toVector d (Row.normalized (intoPlane h lead r)) := by
  rw [moveVector, Row.ofFn_toVector width]

/-- Rays that are moved to the same vector are the same. -/
theorem Valid.moved_injective (valid : Valid d cs k e) (at_k : cs[k]? = some (h, equality)) {line lead : Row}
    (leads : Leads d cs k line lead) {r s : ExtremeRay} (hr : r ∈ e.rays) (hs : s ∈ e.rays)
    (same : Row.normalized (intoPlane h lead r.vector) = Row.normalized (intoPlane h lead s.vector)) :
    r.vector = s.vector := by
  obtain ⟨b, hb, er⟩ := valid.exists_moved at_k leads hr
  obtain ⟨c, -, es⟩ := valid.exists_moved at_k leads hs
  refine Row.toVector_injective (valid.rayWidth r hr) (valid.rayWidth s hs)
    (valid.describes.eq_of_slide leads.member (mem_vectors_rays.2 ⟨r, hr, rfl⟩)
      (mem_vectors_rays.2 ⟨s, hs, rfl⟩) hb.ne' (b := c) ?_)
  rw [← er, ← es, same, sub_self]
  exact Submodule.zero_mem _

theorem mem_splitLine {line : Row} {others : List Row} {r : ExtremeRay} :
    r ∈ (e.splitLine h equality line others).rays ↔
      (∃ s ∈ e.rays, r = ⟨Row.normalized (intoPlane h (oriented h line) s.vector),
        s.tight ++ [e.constraints.length]⟩) ∨
      equality = false ∧ r = ⟨Row.normalized (oriented h line), List.range e.constraints.length⟩ := by
  have moved : (∃ s ∈ e.rays, r = ⟨Row.normalized (intoPlane h (oriented h line) s.vector),
      s.tight ++ [e.constraints.length]⟩) ↔ r ∈ e.rays.map fun s =>
        ⟨Row.normalized (intoPlane h (oriented h line) s.vector), s.tight ++ [e.constraints.length]⟩ := by
    rw [List.mem_map]
    exact exists_congr fun s => and_congr_right fun _ => eq_comm
  rw [moved]
  cases equality with
  | true =>
    rw [or_iff_left fun e => absurd e.1 (by decide)]
    rfl
  | false =>
    rw [and_iff_right rfl, ← List.mem_singleton, ← List.mem_append]
    rfl

theorem map_vector_splitLine (e : Enumeration) (line : Row) (others : List Row) :
    (e.splitLine h equality line others).rays.map ExtremeRay.vector =
      (e.rays.map ExtremeRay.vector).map (fun v => Row.normalized (intoPlane h (oriented h line) v)) ++
        if equality then [] else [Row.normalized (oriented h line)] := by
  cases equality with
  | true =>
    show (e.rays.map _).map _ = _
    rw [if_pos rfl, List.append_nil, List.map_map, List.map_map]
    rfl
  | false =>
    show (e.rays.map _ ++ [_]).map _ = _
    rw [if_neg Bool.false_ne_true, List.map_append, List.map_map, List.map_map]
    rfl

theorem Valid.form_moved (valid : Valid d cs k e) (at_k : cs[k]? = some (h, equality)) {line lead : Row}
    (leads : Leads d cs k line lead) {r : ExtremeRay} (hr : r ∈ e.rays) :
    (halfspaces d cs).form k (toVector d (Row.normalized (intoPlane h lead r.vector))) = 0 := by
  obtain ⟨c, -, moved⟩ := valid.exists_moved at_k leads hr
  rw [moved, map_smul, Halfspaces.form_slide leads.positive, smul_zero]

theorem Leads.form_normalized_ne {line lead : Row} (leads : Leads d cs k line lead) :
    (halfspaces d cs).form k (toVector d (Row.normalized lead)) ≠ 0 := by
  obtain ⟨b, hb, led⟩ := Row.exists_toVector_normalized (d := d) lead
  rw [led, map_smul, smul_eq_mul]
  exact (mul_pos hb leads.positive).ne'

/-- The line that leads lies in all planes up to its own. -/
theorem Leads.mem_tight_normalized {line lead : Row} (leads : Leads d cs k line lead) {j : ℕ} :
    j ∈ (halfspaces d cs).tight (k + 1) (toVector d (Row.normalized lead)) ↔ j < k := by
  obtain ⟨b, hb, led⟩ := Row.exists_toVector_normalized (d := d) lead
  rw [Halfspaces.mem_tight_succ, or_iff_left fun both => leads.form_normalized_ne both.2, led,
    Halfspaces.tight_smul hb.ne', Halfspaces.mem_tight]
  exact and_iff_left_of_imp (leads.member j)

/-- A moved ray lies in the planes that it was in before and in the one it is moved to. -/
theorem Valid.mem_tight_moved (valid : Valid d cs k e) (at_k : cs[k]? = some (h, equality)) {line lead : Row}
    (leads : Leads d cs k line lead) {r : ExtremeRay} (hr : r ∈ e.rays) {j : ℕ} :
    j ∈ (halfspaces d cs).tight (k + 1) (toVector d (Row.normalized (intoPlane h lead r.vector))) ↔
      j ∈ r.tight ∨ j = k := by
  obtain ⟨c, hc, moved⟩ := valid.exists_moved at_k leads hr
  rw [Halfspaces.mem_tight_succ, and_iff_left (valid.form_moved at_k leads hr), valid.tight r hr j, moved,
    Halfspaces.tight_smul hc.ne',
    Halfspaces.tight_congr (Halfspaces.sub_slide_mem leads.member (toVector d r.vector))]

theorem Valid.nodup_splitLine (valid : Valid d cs k e) (at_k : cs[k]? = some (h, equality)) {line : Row}
    (leads : Leads d cs k line (oriented h line)) (others : List Row) :
    ((e.splitLine h equality line others).rays.map ExtremeRay.vector).Nodup := by
  have moved : ((e.rays.map ExtremeRay.vector).map fun v =>
      Row.normalized (intoPlane h (oriented h line) v)).Nodup := by
    refine valid.nodup.map_on fun v hv w hw same => ?_
    obtain ⟨r, hr, rfl⟩ := List.mem_map.1 hv
    obtain ⟨s, hs, rfl⟩ := List.mem_map.1 hw
    exact valid.moved_injective at_k leads hr hs same
  rw [map_vector_splitLine]
  split
  · rwa [List.append_nil]
  · refine moved.append (List.nodup_singleton _) fun v hv last => ?_
    rw [List.mem_singleton] at last
    subst last
    obtain ⟨_, hw, same⟩ := List.mem_map.1 hv
    obtain ⟨r, hr, rfl⟩ := List.mem_map.1 hw
    exact leads.form_normalized_ne (same ▸ valid.form_moved at_k leads hr)

theorem Valid.describes_splitLine (valid : Valid d cs k e) (at_k : cs[k]? = some (h, equality)) {line : Row}
    (leads : Leads d cs k line (oriented h line)) (others : List Row) : (halfspaces d cs).Describes (k + 1)
      (vectors d ((e.splitLine h equality line others).rays.map ExtremeRay.vector)) := by
  have moved : ∀ v ∈ vectors d (e.rays.map ExtremeRay.vector), ∃ c : ℚ, 0 < c ∧
      moveVector d h (oriented h line) v =
        c • (halfspaces d cs).slide k (toVector d (oriented h line)) v := by
    intro v hv
    obtain ⟨r, hr, rfl⟩ := mem_vectors_rays.1 hv
    rw [moveVector_toVector (valid.rayWidth r hr)]
    exact valid.exists_moved at_k leads hr
  refine .alongLine ⟨leads.member, leads.positive, moved, Row.exists_toVector_normalized _,
    fun v => ?_⟩ valid.describes
  rw [mem_vectors_rays, equality_halfspaces at_k, Bool.not_eq_true]
  constructor
  · rintro ⟨r, hr, rfl⟩
    rcases mem_splitLine.1 hr with ⟨s, hs, rfl⟩ | ⟨ineq, rfl⟩
    · exact .inl ⟨_, mem_vectors_rays.2 ⟨s, hs, rfl⟩, (moveVector_toVector (valid.rayWidth s hs)).symm⟩
    · exact .inr ⟨ineq, rfl⟩
  · rintro (⟨_, hw, rfl⟩ | ⟨ineq, rfl⟩)
    · obtain ⟨s, hs, rfl⟩ := mem_vectors_rays.1 hw
      exact ⟨_, mem_splitLine.2 (.inl ⟨s, hs, rfl⟩), moveVector_toVector (valid.rayWidth s hs)⟩
    · exact ⟨_, mem_splitLine.2 (.inr ⟨ineq, rfl⟩), rfl⟩

/-- A constraint that is not zero on a line keeps the state valid. -/
theorem Valid.splitLine (valid : Valid d cs k e) (at_k : cs[k]? = some (h, equality)) {i : ℕ}
    (hi : i < e.lines.length) (ne : Row.dot h e.lines[i] ≠ 0) :
    Valid d cs (k + 1) (e.splitLine h equality e.lines[i] (e.lines.eraseIdx i)) := by
  have leads := valid.leads at_k (List.getElem_mem hi) ne
  have count := valid.length_constraints (List.getElem?_eq_some_iff.1 at_k).1.le
  refine ⟨take_succ at_k valid.constraints, fun l hl => ?_, fun r hr => ?_, fun r hr j => ?_,
    valid.nodup_splitLine at_k leads _, valid.span_others at_k hi leads,
    valid.describes_splitLine at_k leads _⟩
  · obtain ⟨m, hm, rfl⟩ := List.mem_map.1 hl
    exact length_intoPlane leads.width (valid.lineWidth m (List.mem_of_mem_eraseIdx hm))
  · rcases mem_splitLine.1 hr with ⟨s, hs, rfl⟩ | ⟨-, rfl⟩
    · rw [Row.length_normalized]
      exact length_intoPlane leads.width (valid.rayWidth s hs)
    · rw [Row.length_normalized]
      exact leads.width
  · rcases mem_splitLine.1 hr with ⟨s, hs, rfl⟩ | ⟨-, rfl⟩
    · rw [valid.mem_tight_moved at_k leads hs, List.mem_append, List.mem_singleton, count]
    · rw [leads.mem_tight_normalized, List.mem_range, count]

/-! ## A constraint that is zero on every line -/

theorem mem_addNew {rays : List ExtremeRay} {r s : ExtremeRay} (h : r ∈ addNew rays s) :
    r ∈ rays ∨ r = s := by
  unfold addNew at h
  split at h
  · exact .inl h
  · rwa [List.mem_append, List.mem_singleton] at h

theorem vector_mem_addNew {rays : List ExtremeRay} {s : ExtremeRay} {v : Row} :
    v ∈ (addNew rays s).map ExtremeRay.vector ↔ v ∈ rays.map ExtremeRay.vector ∨ v = s.vector := by
  unfold addNew
  split
  · rename_i seen
    obtain ⟨r, hr, same⟩ := List.any_eq_true.1 seen
    rw [or_iff_left_of_imp]
    rintro rfl
    exact List.mem_map.2 ⟨r, hr, beq_iff_eq.1 same⟩
  · rw [List.map_append, List.mem_append, List.map_singleton, List.mem_singleton]

theorem nodup_addNew {rays : List ExtremeRay} (h : (rays.map ExtremeRay.vector).Nodup) (s : ExtremeRay) :
    ((addNew rays s).map ExtremeRay.vector).Nodup := by
  unfold addNew
  split
  · exact h
  · rename_i unseen
    rw [List.map_append]
    refine h.append (List.nodup_singleton _) fun v hv last => unseen ?_
    obtain ⟨r, hr, rfl⟩ := List.mem_map.1 hv
    exact List.any_eq_true.2 ⟨r, hr, beq_iff_eq.2 (List.mem_singleton.1 last)⟩

theorem mem_foldl_addNew {created rays : List ExtremeRay} {r : ExtremeRay}
    (h : r ∈ created.foldl addNew rays) :
    r ∈ rays ∨ r ∈ created := by
  induction created generalizing rays with
  | nil => exact .inl h
  | cons s rest ih =>
    rcases ih h with early | late
    · refine (mem_addNew early).imp_right fun same => ?_
      rw [same]
      exact List.mem_cons_self
    · exact .inr (List.mem_cons_of_mem _ late)

theorem vector_mem_foldl_addNew {created rays : List ExtremeRay} {v : Row} :
    v ∈ (created.foldl addNew rays).map ExtremeRay.vector ↔
      v ∈ rays.map ExtremeRay.vector ∨ v ∈ created.map ExtremeRay.vector := by
  induction created generalizing rays with
  | nil => exact (or_iff_left List.not_mem_nil).symm
  | cons s rest ih =>
    rw [List.foldl_cons, ih, vector_mem_addNew, List.map_cons, List.mem_cons, or_assoc]

theorem nodup_foldl_addNew {created rays : List ExtremeRay} (h : (rays.map ExtremeRay.vector).Nodup) :
    ((created.foldl addNew rays).map ExtremeRay.vector).Nodup := by
  induction created generalizing rays with
  | nil => exact h
  | cons s rest ih => exact ih (nodup_addNew h s)

theorem mem_kept {rays : List ExtremeRay} {r : ExtremeRay} : r ∈ kept rays h k equality ↔
    ∃ s ∈ rays, (Row.dot h s.vector = 0 ∧ r = ⟨s.vector, s.tight ++ [k]⟩) ∨
      0 < Row.dot h s.vector ∧ equality = false ∧ r = s := by
  rw [kept, List.mem_filterMap]
  refine exists_congr fun s => and_congr_right fun _ => ?_
  rcases lt_trichotomy (Row.dot h s.vector) 0 with below | zero | above
  · simp [below.ne, below.not_gt]
  · simp [zero, eq_comm]
  · cases equality <;> simp [above.ne', above, eq_comm]

/-- The vectors of the rays that stay. -/
theorem map_vector_kept (rays : List ExtremeRay) (h : Row) (k : ℕ) (equality : Bool) :
    (kept rays h k equality).map ExtremeRay.vector = (rays.map ExtremeRay.vector).filter fun v =>
      decide (Row.dot h v = 0 ∨ 0 < Row.dot h v ∧ equality = false) := by
  rw [kept, List.map_filterMap, List.filter_map, ← List.filterMap_eq_filter, List.map_filterMap]
  refine List.filterMap_congr fun r _ => ?_
  rcases lt_trichotomy (Row.dot h r.vector) 0 with below | zero | above
  · simp [Option.guard, below.ne, below.not_gt]
  · simp [Option.guard, zero]
  · cases equality <;> simp [Option.guard, above.ne', above]

theorem vector_mem_kept {rays : List ExtremeRay} {v : Row} :
    v ∈ (kept rays h k equality).map ExtremeRay.vector ↔ v ∈ rays.map ExtremeRay.vector ∧
      (Row.dot h v = 0 ∨ 0 < Row.dot h v ∧ equality = false) := by
  rw [map_vector_kept, List.mem_filter, decide_eq_true_iff]

theorem nodup_kept {rays : List ExtremeRay} (unique : (rays.map ExtremeRay.vector).Nodup) :
    ((kept rays h k equality).map ExtremeRay.vector).Nodup := by
  rw [map_vector_kept]
  exact unique.filter _

theorem mem_crossings {rays : List ExtremeRay} {constraints : List Row} {required : ℕ} {r : ExtremeRay} :
    r ∈ crossings rays constraints h required ↔ ∃ i p j n, rays[i]? = some p ∧ rays[j]? = some n ∧
      0 < Row.dot h p.vector ∧ Row.dot h n.vector < 0 ∧ areAdjacent rays (i, p) (j, n) required = true ∧
      r = ⟨crossing h p.vector n.vector, (constraints.zipIdx.filter fun c =>
        Row.dot c.1 (crossing h p.vector n.vector) == 0).map Prod.snd⟩ := by
  have numbered {a : Nat × ExtremeRay} :
      a ∈ rays.zipIdx.map (fun r => (r.2, r.1)) ↔ rays[a.1]? = some a.2 := by
    rw [List.mem_map]
    constructor
    · rintro ⟨⟨r, i⟩, mem, rfl⟩
      exact List.mem_zipIdx_iff_getElem?.1 mem
    · exact fun at_a => ⟨(a.2, a.1), List.mem_zipIdx_iff_getElem?.2 at_a, rfl⟩
  simp only [crossings, List.mem_flatMap, List.mem_map, List.mem_filter, numbered, decide_eq_true_iff]
  constructor
  · rintro ⟨⟨i, p⟩, ⟨at_i, pos⟩, ⟨j, n⟩, ⟨⟨at_j, neg⟩, adjacent⟩, rfl⟩
    exact ⟨i, p, j, n, at_i, at_j, pos, neg, adjacent, rfl⟩
  · rintro ⟨i, p, j, n, at_i, at_j, pos, neg, adjacent, rfl⟩
    exact ⟨(i, p), ⟨at_i, pos⟩, (j, n), ⟨⟨at_j, neg⟩, adjacent⟩, rfl⟩

theorem areAdjacent_iff {rays : List ExtremeRay} {i j required : ℕ} {p n : ExtremeRay} :
    areAdjacent rays (i, p) (j, n) required = true ↔
      required ≤ (p.tight.filter n.tight.contains).length ∧
        ∀ m r, rays[m]? = some r → (∀ c ∈ p.tight, c ∈ n.tight → c ∈ r.tight) → m = i ∨ m = j := by
  simp only [areAdjacent, Bool.and_eq_true, decide_eq_true_iff, List.all_eq_true, Bool.or_eq_true,
    beq_iff_eq, Bool.not_eq_true', Prod.forall, List.mem_zipIdx_iff_getElem?]
  refine and_congr_right fun _ => ⟨fun all m r at_m shared => ?_, fun all r m at_m => ?_⟩
  · refine (all r m at_m).resolve_right fun third => Bool.eq_false_iff.1 third ?_
    refine List.all_eq_true.2 fun c hc => List.contains_iff_mem.2 ?_
    obtain ⟨hp, hn⟩ := List.mem_filter.1 hc
    exact shared c hp (List.contains_iff_mem.1 hn)
  · by_contra none
    rw [not_or, Bool.not_eq_false] at none
    refine none.1 (all m r at_m fun c hp hn => ?_)
    exact List.contains_iff_mem.1 (List.all_eq_true.1 none.2 c
      (List.mem_filter.2 ⟨hp, List.contains_iff_mem.2 hn⟩))

/-- Rays at different positions have different vectors. -/
theorem Valid.eq_of_vector (valid : Valid d cs k e) {i j : ℕ} {r s : ExtremeRay} (at_i : e.rays[i]? = some r)
    (at_j : e.rays[j]? = some s) (same : toVector d r.vector = toVector d s.vector) : i = j := by
  have same := Row.toVector_injective (valid.rayWidth r (List.mem_of_getElem? at_i))
    (valid.rayWidth s (List.mem_of_getElem? at_j)) same
  have lt := (List.getElem?_eq_some_iff.1 at_i).1
  refine (List.getElem?_inj (by rwa [List.length_map]) valid.nodup).1 ?_
  rw [List.getElem?_map, List.getElem?_map, at_i, at_j, Option.map_some, Option.map_some, same]

section Shared

variable {p n r : ExtremeRay} {s t u : Finset ℕ} (hp : ∀ i, i ∈ p.tight ↔ i ∈ s)
    (hn : ∀ i, i ∈ n.tight ↔ i ∈ t)

include hp hn

theorem inter_subset_iff (hr : ∀ i, i ∈ r.tight ↔ i ∈ u) :
    s ∩ t ⊆ u ↔ ∀ c ∈ p.tight, c ∈ n.tight → c ∈ r.tight := by
  simp only [Finset.subset_iff, Finset.mem_inter, ← hp, ← hn, ← hr, and_imp]

/-- The constraints that two rays share are no more than the list of them is long. -/
theorem card_inter_le : (s ∩ t).card ≤ (p.tight.filter n.tight.contains).length := by
  have common : s ∩ t ⊆ (p.tight.filter n.tight.contains).toFinset := by
    intro c hc
    rw [Finset.mem_inter, ← hp, ← hn] at hc
    exact List.mem_toFinset.2 (List.mem_filter.2 ⟨hc.1, List.contains_iff_mem.2 hc.2⟩)
  exact (Finset.card_le_card common).trans (List.toFinset_card_le _)

end Shared

/-- Adjacent rays pass the test, which counts the lines rather than their dimension. -/
theorem Valid.areAdjacent_of_adjacent (valid : Valid d cs k e) {i j : ℕ} {p n : ExtremeRay}
    (at_i : e.rays[i]? = some p) (at_j : e.rays[j]? = some n)
    (adjacent : (halfspaces d cs).Adjacent k (vectors d (e.rays.map ExtremeRay.vector))
      (toVector d p.vector) (toVector d n.vector)) :
    areAdjacent e.rays (i, p) (j, n) (d - (e.lines.length + 2)) = true := by
  have hp := List.mem_of_getElem? at_i
  have hn := List.mem_of_getElem? at_j
  obtain ⟨dimension, third⟩ := adjacent
  refine areAdjacent_iff.2 ⟨?_, fun m r at_m shared => ?_⟩
  · have few := card_inter_le (valid.tight p hp) (valid.tight n hn)
    have lines := Row.finrank_span_vectors_le d e.lines
    rw [valid.lines] at lines
    rw [Module.finrank_fin_fun] at dimension
    omega
  · have hr := List.mem_of_getElem? at_m
    have sub := (inter_subset_iff (valid.tight p hp) (valid.tight n hn) (valid.tight r hr)).2 shared
    rcases third _ (mem_vectors_rays.2 ⟨r, hr, rfl⟩) sub with same | same
    · exact .inl (valid.eq_of_vector at_m at_i same)
    · exact .inr (valid.eq_of_vector at_m at_j same)

theorem exists_toVector_crossing (at_k : cs[k]? = some (h, equality)) {p n : Row} (hp : p.length = d)
    (hn : n.length = d) : ∃ c : ℚ, 0 < c ∧ toVector d (crossing h p n) =
      c • (halfspaces d cs).bridge k (toVector d p) (toVector d n) := by
  rw [Halfspaces.bridge, form_toVector at_k hp, form_toVector at_k hn, ← Row.toVector_scale,
    ← Row.toVector_subMul _ (by rw [Row.length_scale, hn, hp])]
  exact Row.exists_toVector_normalized _

theorem length_crossing {p n : Row} (hp : p.length = d) (hn : n.length = d) :
    (crossing h p n).length = d := by
  rw [crossing, Row.length_normalized, Row.length_subMul _ (by rw [Row.length_scale, hn, hp]),
    Row.length_scale, hn]

/-- The constraints met with equality, as they are computed for a new ray. -/
theorem mem_tight_computed {constraints : List Row} (hc : constraints = (cs.take k).map Prod.fst) {v : Row}
    (hk : k ≤ cs.length) (width : v.length = d) (i : ℕ) :
    i ∈ (constraints.zipIdx.filter fun c => Row.dot c.1 v == 0).map Prod.snd ↔
      i ∈ (halfspaces d cs).tight k (toVector d v) := by
  subst hc
  simp only [List.mem_map, List.mem_filter, Prod.exists, List.mem_zipIdx_iff_getElem?, beq_iff_eq,
    Halfspaces.mem_tight, exists_eq_right]
  constructor
  · rintro ⟨c, at_i, zero⟩
    have lt := (List.getElem?_eq_some_iff.1 at_i).1
    rw [List.length_map, List.length_take, min_eq_left hk] at lt
    rw [List.getElem?_map, List.getElem?_take_of_lt lt, Option.map_eq_some_iff] at at_i
    obtain ⟨⟨c, q⟩, at_i, rfl⟩ := at_i
    exact ⟨lt, by rwa [form_toVector at_i width]⟩
  · rintro ⟨lt, zero⟩
    obtain ⟨⟨c, q⟩, at_i⟩ : ∃ c, cs[i]? = some c := ⟨_, List.getElem?_eq_getElem (lt.trans_le hk)⟩
    rw [form_toVector at_i width] at zero
    refine ⟨c, ?_, zero⟩
    rw [List.getElem?_map, List.getElem?_take_of_lt lt, at_i]
    rfl

/-- The crossing of two rays, on vectors. -/
def crossVectors (d : ℕ) (h : Row) (u w : Fin d → ℚ) : Fin d → ℚ :=
  toVector d (crossing h (List.ofFn u) (List.ofFn w))

theorem crossVectors_toVector {p n : Row} (hp : p.length = d) (hn : n.length = d) :
    crossVectors d h (toVector d p) (toVector d n) = toVector d (crossing h p n) := by
  rw [crossVectors, Row.ofFn_toVector hp, Row.ofFn_toVector hn]

/-- The test of adjacency, on vectors. -/
def Tested (d : ℕ) (e : Enumeration) (u v : Fin d → ℚ) : Prop :=
  ∃ i p j n, e.rays[i]? = some p ∧ e.rays[j]? = some n ∧ u = toVector d p.vector ∧
    v = toVector d n.vector ∧ areAdjacent e.rays (i, p) (j, n) (d - (e.lines.length + 2)) = true

theorem Valid.third_of_tested (valid : Valid d cs k e) {u v w : Fin d → ℚ} (tested : Tested d e u v)
    (hw : w ∈ vectors d (e.rays.map ExtremeRay.vector))
    (shared : (halfspaces d cs).tight k u ∩ (halfspaces d cs).tight k v ⊆ (halfspaces d cs).tight k w) :
    w = u ∨ w = v := by
  obtain ⟨i, p, j, n, at_i, at_j, rfl, rfl, adjacent⟩ := tested
  obtain ⟨r, hr, rfl⟩ := mem_vectors_rays.1 hw
  obtain ⟨m, at_m⟩ := List.mem_iff_getElem?.1 hr
  have common := (inter_subset_iff (valid.tight p (List.mem_of_getElem? at_i))
    (valid.tight n (List.mem_of_getElem? at_j)) (valid.tight r hr)).1 shared
  rcases (areAdjacent_iff.1 adjacent).2 m r at_m common with rfl | rfl
  · exact .inl (by rw [Option.some.inj (at_m.symm.trans at_i)])
  · exact .inr (by rw [Option.some.inj (at_m.symm.trans at_j)])

theorem Valid.tested_of_adjacent (valid : Valid d cs k e) {u v : Fin d → ℚ}
    (hu : u ∈ vectors d (e.rays.map ExtremeRay.vector)) (hv : v ∈ vectors d (e.rays.map ExtremeRay.vector))
    (adjacent : (halfspaces d cs).Adjacent k (vectors d (e.rays.map ExtremeRay.vector)) u v) :
    Tested d e u v := by
  obtain ⟨p, hp, rfl⟩ := mem_vectors_rays.1 hu
  obtain ⟨n, hn, rfl⟩ := mem_vectors_rays.1 hv
  obtain ⟨i, at_i⟩ := List.mem_iff_getElem?.1 hp
  obtain ⟨j, at_j⟩ := List.mem_iff_getElem?.1 hn
  exact ⟨i, p, j, n, at_i, at_j, rfl, rfl, valid.areAdjacent_of_adjacent at_i at_j adjacent⟩

/-- The rays after the cut, as vectors. -/
theorem Valid.raysAcross (valid : Valid d cs k e) (at_k : cs[k]? = some (h, equality)) (v : Fin d → ℚ) :
    v ∈ vectors d ((e.splitRays d h equality).rays.map ExtremeRay.vector) ↔
      (halfspaces d cs).RaysAcross k (vectors d (e.rays.map ExtremeRay.vector)) (Tested d e)
        (crossVectors d h) v := by
  have created {row : Row} : row ∈ (crossings e.rays (e.constraints ++ [h]) h (d - (e.lines.length + 2))).map
      ExtremeRay.vector ↔ ∃ i p j n, e.rays[i]? = some p ∧ e.rays[j]? = some n ∧ 0 < Row.dot h p.vector ∧
        Row.dot h n.vector < 0 ∧ areAdjacent e.rays (i, p) (j, n) (d - (e.lines.length + 2)) = true ∧
        row = crossing h p.vector n.vector := by
    rw [List.mem_map]
    constructor
    · rintro ⟨r, hr, rfl⟩
      obtain ⟨i, p, j, n, at_i, at_j, pos, neg, adjacent, rfl⟩ := mem_crossings.1 hr
      exact ⟨i, p, j, n, at_i, at_j, pos, neg, adjacent, rfl⟩
    · rintro ⟨i, p, j, n, at_i, at_j, pos, neg, adjacent, rfl⟩
      exact ⟨_, mem_crossings.2 ⟨i, p, j, n, at_i, at_j, pos, neg, adjacent, rfl⟩, rfl⟩
  have rays {row : Row} : row ∈ (e.splitRays d h equality).rays.map ExtremeRay.vector ↔ _ ∨ _ :=
    vector_mem_foldl_addNew
  constructor
  · rintro ⟨row, mem, rfl⟩
    rcases rays.1 mem with old | new
    · obtain ⟨hv, side⟩ := vector_mem_kept.1 old
      obtain ⟨r, hr, rfl⟩ := List.mem_map.1 hv
      rw [← form_toVector at_k (valid.rayWidth r hr), ← Bool.not_eq_true,
        ← equality_halfspaces (d := d) at_k] at side
      exact .inl ⟨mem_vectors_rays.2 ⟨r, hr, rfl⟩, side⟩
    · obtain ⟨i, p, j, n, at_i, at_j, pos, neg, adjacent, rfl⟩ := created.1 new
      have hp := List.mem_of_getElem? at_i
      have hn := List.mem_of_getElem? at_j
      refine .inr ⟨_, mem_vectors_rays.2 ⟨p, hp, rfl⟩, _, mem_vectors_rays.2 ⟨n, hn, rfl⟩, ?_, ?_,
        ⟨i, p, j, n, at_i, at_j, rfl, rfl, adjacent⟩, ?_⟩
      · rwa [form_toVector at_k (valid.rayWidth p hp)]
      · rwa [form_toVector at_k (valid.rayWidth n hn)]
      · exact (crossVectors_toVector (valid.rayWidth p hp) (valid.rayWidth n hn)).symm
  · rintro (⟨hv, side⟩ | ⟨_, -, _, -, pos, neg, ⟨i, p, j, n, at_i, at_j, rfl, rfl, adjacent⟩, rfl⟩)
    · obtain ⟨r, hr, rfl⟩ := mem_vectors_rays.1 hv
      rw [form_toVector at_k (valid.rayWidth r hr), equality_halfspaces at_k, Bool.not_eq_true] at side
      exact toVector_mem_vectors (rays.2 (.inl (vector_mem_kept.2 ⟨List.mem_map_of_mem hr, side⟩)))
    · have hp := valid.rayWidth p (List.mem_of_getElem? at_i)
      have hn := valid.rayWidth n (List.mem_of_getElem? at_j)
      rw [form_toVector at_k hp] at pos
      rw [form_toVector at_k hn] at neg
      exact ⟨_, rays.2 (.inr (created.2 ⟨i, p, j, n, at_i, at_j, pos, neg, adjacent, rfl⟩)),
        crossVectors_toVector hp hn⟩

/-- A constraint that is zero on every line keeps the state valid. -/
theorem Valid.splitRays (valid : Valid d cs k e) (at_k : cs[k]? = some (h, equality))
    (zero : ∀ l ∈ e.lines, Row.dot h l = 0) : Valid d cs (k + 1) (e.splitRays d h equality) := by
  have lt := (List.getElem?_eq_some_iff.1 at_k).1
  have constraints := take_succ at_k valid.constraints
  have flat : ∀ l ∈ (halfspaces d cs).lineality k, (halfspaces d cs).form k l = 0 := by
    intro l hl
    rw [← valid.lines] at hl
    refine Submodule.span_le (p := LinearMap.ker ((halfspaces d cs).form k)).2 ?_ hl
    rintro _ ⟨line, hl, rfl⟩
    rw [SetLike.mem_coe, LinearMap.mem_ker, form_toVector at_k (valid.lineWidth line hl)]
    exact zero line hl
  refine ⟨constraints, valid.lineWidth, fun r hr => ?_, fun r hr i => ?_,
    nodup_foldl_addNew (nodup_kept valid.nodup),
    valid.lines.trans (Halfspaces.lineality_succ flat).symm, ?_⟩
  · rcases mem_foldl_addNew hr with old | new
    · obtain ⟨s, hs, ⟨-, rfl⟩ | ⟨-, -, rfl⟩⟩ := mem_kept.1 old
      · exact valid.rayWidth s hs
      · exact valid.rayWidth r hs
    · obtain ⟨i, p, j, n, at_i, at_j, -, -, -, rfl⟩ := mem_crossings.1 new
      exact length_crossing (valid.rayWidth p (List.mem_of_getElem? at_i))
        (valid.rayWidth n (List.mem_of_getElem? at_j))
  · rcases mem_foldl_addNew hr with old | new
    · obtain ⟨s, hs, ⟨level, rfl⟩ | ⟨above, -, rfl⟩⟩ := mem_kept.1 old
      · rw [Halfspaces.mem_tight_succ, form_toVector at_k (valid.rayWidth s hs), and_iff_left level,
          List.mem_append, List.mem_singleton, valid.length_constraints lt.le, valid.tight s hs i]
      · rw [Halfspaces.mem_tight_succ, form_toVector at_k (valid.rayWidth r hs),
          or_iff_left fun both => above.ne' both.2, valid.tight r hs i]
    · obtain ⟨i', p, j, n, at_i, at_j, -, -, -, rfl⟩ := mem_crossings.1 new
      exact mem_tight_computed constraints lt (length_crossing (valid.rayWidth p (List.mem_of_getElem? at_i))
        (valid.rayWidth n (List.mem_of_getElem? at_j))) i
  · refine valid.describes.acrossRays flat (fun u _ v _ tested w hw => valid.third_of_tested tested hw)
      (fun u hu v hv => valid.tested_of_adjacent hu hv) (fun u hu v hv => ?_) (valid.raysAcross at_k)
    obtain ⟨p, hp, rfl⟩ := mem_vectors_rays.1 hu
    obtain ⟨n, hn, rfl⟩ := mem_vectors_rays.1 hv
    rw [crossVectors_toVector (valid.rayWidth p hp) (valid.rayWidth n hn)]
    exact exists_toVector_crossing at_k (valid.rayWidth p hp) (valid.rayWidth n hn)

/-! ## The whole enumeration -/

theorem Valid.add (valid : Valid d cs k e) (at_k : cs[k]? = some (h, equality)) :
    Valid d cs (k + 1) (e.add d h equality) := by
  unfold Enumeration.add
  split
  · rename_i i found
    obtain ⟨hi, nonzero, -⟩ := List.findIdx?_eq_some_iff_getElem.1 found
    rw [List.getD_eq_getElem _ _ hi]
    exact valid.splitLine at_k hi (bne_iff_ne.1 nonzero)
  · rename_i none
    refine valid.splitRays at_k fun l hl => ?_
    have := List.findIdx?_eq_none_iff.1 none l hl
    simpa using this

/-- What every constraint keeps holds after all of them. -/
theorem addAll_induction {P : ℕ → Enumeration → Prop}
    (step : ∀ {k e h equality}, cs[k]? = some (h, equality) → P k e → P (k + 1) (e.add d h equality))
    {maxRays : ℕ}
    {e' : Enumeration} {rest : List (Row × Bool)} (holds : P k e) (suffix : cs.drop k = rest)
    (hk : k ≤ cs.length) (done : addAll maxRays d rest e = .ok e') : P cs.length e' := by
  induction rest generalizing k e with
  | nil =>
    have all : k = cs.length := hk.antisymm (List.drop_eq_nil_iff.1 suffix)
    cases done
    rwa [← all]
  | cons c rest ih =>
    have lt : k < cs.length := by
      by_contra ge
      rw [List.drop_eq_nil_of_le (not_lt.1 ge)] at suffix
      cases suffix
    rw [List.drop_eq_getElem_cons lt] at suffix
    injection suffix with head tail
    obtain ⟨h, equality⟩ := c
    rw [Enumeration.addAll] at done
    split at done
    · cases done
    · exact ih (step (by rw [List.getElem?_eq_getElem lt, head]) holds) tail lt done

theorem addAll_error {maxRays : ℕ} {error : Error} {rest : List (Row × Bool)}
    (failed : addAll maxRays d rest e = .error error) : error = .enumerationLimit maxRays := by
  induction rest generalizing e with
  | nil => cases failed
  | cons c rest ih =>
    rw [Enumeration.addAll] at failed
    split at failed
    · exact (Except.error.inj failed).symm
    · exact ih failed

/-- The lines and rays found generate the cone, and have the width of the space. -/
structure Generators.Spans (d : ℕ) (cs : List (Row × Bool)) (g : Generators) : Prop where
  lineWidth : ∀ l ∈ g.lines, l.length = d
  rayWidth : ∀ r ∈ g.rays, r.length = d
  lines : Submodule.span ℚ (vectors d g.lines) = (halfspaces d cs).lineality cs.length
  rays : vectors d g.rays ⊆ (halfspaces d cs).cone cs.length
  generates : ∀ y ∈ (halfspaces d cs).cone cs.length,
    Generated (vectors d g.rays) ((halfspaces d cs).lineality cs.length) y

theorem span_vectors_normalized (d : ℕ) (rows : List Row) :
    Submodule.span ℚ (vectors d (rows.map Row.normalized)) = Submodule.span ℚ (vectors d rows) := by
  refine le_antisymm (Submodule.span_le.2 ?_) (Submodule.span_le.2 ?_)
  · rintro _ ⟨_, mem, rfl⟩
    obtain ⟨r, hr, rfl⟩ := List.mem_map.1 mem
    obtain ⟨c, -, same⟩ := Row.exists_toVector_normalized (d := d) r
    rw [same]
    exact Submodule.smul_mem _ c (Submodule.subset_span (toVector_mem_vectors hr))
  · rintro _ ⟨r, hr, rfl⟩
    obtain ⟨c, hc, same⟩ := Row.exists_toVector_normalized (d := d) r
    have : toVector d r = c⁻¹ • toVector d (Row.normalized r) := by
      rw [same, smul_smul, inv_mul_cancel₀ hc.ne', one_smul]
    rw [this]
    exact Submodule.smul_mem _ _ (Submodule.subset_span (toVector_mem_vectors (List.mem_map_of_mem hr)))

/-- What holds at the start and is kept by every constraint holds of the generators found. -/
theorem exists_of_generators {P : ℕ → Enumeration → Prop} (begin : P 0 (start d))
    (step : ∀ {k e h equality}, cs[k]? = some (h, equality) → P k e → P (k + 1) (e.add d h equality))
    {maxRays : ℕ} {g : Generators} (found : generators maxRays d cs = .ok g) :
    ∃ e, P cs.length e ∧ g = ⟨e.rays.map ExtremeRay.vector, e.lines.map Row.normalized⟩ := by
  rw [generators] at found
  cases done : addAll maxRays d cs (start d) with
  | error error =>
    rw [done] at found
    cases found
  | ok e =>
    rw [done] at found
    cases found
    exact ⟨e, addAll_induction step begin rfl (Nat.zero_le _) done, rfl⟩

theorem exists_valid {maxRays : ℕ} {g : Generators} (found : generators maxRays d cs = .ok g) :
    ∃ e, Valid d cs cs.length e ∧ g = ⟨e.rays.map ExtremeRay.vector, e.lines.map Row.normalized⟩ :=
  exists_of_generators (valid_start d cs) (fun at_k valid => valid.add at_k) found

theorem generators_spec {maxRays : ℕ} {g : Generators} (found : generators maxRays d cs = .ok g) :
    g.Spans d cs := by
  obtain ⟨e, valid, rfl⟩ := exists_valid found
  refine ⟨fun l hl => ?_, fun r hr => ?_, (span_vectors_normalized d _).trans valid.lines,
    valid.describes.subset_cone, valid.describes.generates⟩
  · obtain ⟨m, hm, rfl⟩ := List.mem_map.1 hl
    rw [Row.length_normalized, valid.lineWidth m hm]
  · obtain ⟨s, hs, rfl⟩ := List.mem_map.1 hr
    exact valid.rayWidth s hs

/-- The rays found are extreme, and no two of them are multiples of one another. -/
theorem generators_describe {maxRays : ℕ} {g : Generators} (found : generators maxRays d cs = .ok g) :
    (halfspaces d cs).Describes cs.length (vectors d g.rays) := by
  obtain ⟨e, valid, rfl⟩ := exists_valid found
  exact valid.describes

theorem generators_error {maxRays : ℕ} {error : Error} (failed : generators maxRays d cs = .error error) :
    error = .enumerationLimit maxRays := by
  rw [generators] at failed
  cases done : addAll maxRays d cs (start d) with
  | error error =>
    rw [done] at failed
    cases failed
    exact addAll_error done
  | ok e =>
    rw [done] at failed
    cases failed

end Prevision.Enumeration
