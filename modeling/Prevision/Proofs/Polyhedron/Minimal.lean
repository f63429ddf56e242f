import Prevision.Proofs.Polyhedron.Conversion

/-!
# Generators of which none is left out

An extreme ray that some vectors of the cone generate is a multiple of one of
these, up to lines (`Extreme.exists_multiple`). So the rays that describe a cone
do not generate one another (`Describes.not_generated`), and have no part in
what generates a line (`Describes.not_generated_line`).

The enumeration keeps as many lines as there are dimensions of lines in the cone,
and normalizes every ray (`Reduced.add`). So its generators are minimal
(`minimal_of_generators`), and they stay so at height one (`Minimal.atHeightOne`).
-/

namespace Prevision

open Row (toVector vectors toVector_mem_vectors)

/-! ## Extreme rays among generators -/

namespace Halfspaces

variable {V : Type*} [AddCommGroup V] [Module ℚ V] {H : Halfspaces V} {k : ℕ} {R S : Set V} {r y l : V}

/-- A combination that is part of an extreme ray is a line or has a ray in it that is a multiple
of the extreme one, up to lines. The induction is on the combination. -/
theorem Extreme.mem_or_exists_multiple (h : H.Extreme k r) (rays : S ⊆ H.cone k)
    (generated : Generated S (H.lineality k) y) (rest : r - y ∈ H.cone k) :
    y ∈ H.lineality k ∨ ∃ s ∈ S, ∃ a : ℚ, r - a • s ∈ H.lineality k := by
  induction generated with
  | line hl => exact .inl hl
  | @addRay y s b _ hs hb ih =>
    have part : b • s ∈ H.cone k := smul_mem_cone (rays hs) hb
    have before : r - y = r - (y + b • s) + b • s := by module
    rcases ih (before ▸ add_mem_cone rest part) with line | multiple
    · have others : r - b • s = r - (y + b • s) + y := by module
      obtain ⟨a, near⟩ := h.summand _ part _ (others ▸ add_line_mem_cone rest line) (add_sub_cancel _ _)
      rcases eq_or_ne a 0 with rfl | ne
      · rw [zero_smul, sub_zero] at near
        exact .inl (Submodule.add_mem _ line near)
      · have scaled : r - (a⁻¹ * b) • s = (-a⁻¹) • (b • s - a • r) := by
          rw [neg_smul, smul_sub, smul_smul, smul_smul, inv_mul_cancel₀ ne, one_smul, neg_sub]
        refine .inr ⟨s, hs, a⁻¹ * b, ?_⟩
        rw [scaled]
        exact Submodule.smul_mem _ _ near
    · exact .inr multiple

/-- An extreme ray is a multiple of one of the vectors that generate it, up to lines. -/
theorem Extreme.exists_multiple (h : H.Extreme k r) (rays : S ⊆ H.cone k)
    (generated : Generated S (H.lineality k) r) :
    ∃ s ∈ S, ∃ a : ℚ, r - a • s ∈ H.lineality k := by
  refine (h.mem_or_exists_multiple rays generated ?_).resolve_left h.not_line
  rw [sub_self]
  exact mem_cone_of_mem_lineality (Submodule.zero_mem _)

/-- The other rays do not generate a ray. -/
theorem Describes.not_generated (h : H.Describes k R) (hr : r ∈ R) (others : S ⊆ R) (out : r ∉ S) :
    ¬Generated S (H.lineality k) r := fun generated => by
  obtain ⟨s, hs, a, near⟩ := (h.extreme r hr).exists_multiple (others.trans h.subset_cone) generated
  exact out (h.apart r hr s (others hs) a near ▸ hs)

/-- Rays are of no use to generate a line. -/
theorem Describes.not_generated_line (h : H.Describes k R) (others : S ⊆ R) {M : Submodule ℚ V}
    (lines : M ≤ H.lineality k) (hl : l ∈ H.lineality k) (out : l ∉ M) : ¬Generated S M l :=
  fun generated => by
  have flat :=
    generated.face (f := H.form) (T := {i | i < k}) (fun i hi r hr => (h.subset_cone (others hr) i hi).1)
    (fun i hi m hm => lines hm i hi) fun i hi => hl i hi
  exact out (flat.mem_of_no_ray fun r hr => (h.extreme r (others hr.1)).not_line hr.2)

/-- Positive multiples of the rays describe the cone as well. -/
theorem Describes.image (h : H.Describes k R) {f : V → V}
    (multiple : ∀ r ∈ R, ∃ c : ℚ, 0 < c ∧ f r = c • r) :
    H.Describes k (f '' R) := by
  refine ⟨fun y hy => (h.generates y hy).trans (fun r hr => ?_) le_rfl, ?_, ?_⟩
  · obtain ⟨c, hc, same⟩ := multiple r hr
    have back : r = c⁻¹ • f r := by rw [same, inv_smul_smul₀ hc.ne']
    rw [back]
    exact .ray (Set.mem_image_of_mem f hr) (inv_nonneg.2 hc.le)
  · rintro _ ⟨r, hr, rfl⟩
    obtain ⟨c, hc, same⟩ := multiple r hr
    rw [same]
    exact (h.extreme r hr).smul hc
  · rintro _ ⟨r, hr, rfl⟩ _ ⟨s, hs, rfl⟩ a near
    obtain ⟨c, hc, same⟩ := multiple r hr
    obtain ⟨c', -, same'⟩ := multiple s hs
    have scaled := Submodule.smul_mem _ c⁻¹ near
    rw [same, same', smul_sub, inv_smul_smul₀ hc.ne', smul_smul, smul_smul] at scaled
    rw [h.apart r hr s hs _ scaled]

/-- A constraint that is not zero on a line takes one dimension of the lines. -/
theorem finrank_lineality_le [FiniteDimensional ℚ V] (hl : l ∈ H.lineality k) (pos : 0 < H.form k l) :
    Module.finrank ℚ (H.lineality k) ≤ Module.finrank ℚ (H.lineality (k + 1)) + 1 := by
  have parts : H.lineality k ≤ H.lineality (k + 1) ⊔ Submodule.span ℚ {l} := fun v hv => by
    rw [← add_sub_cancel (H.slide k l v) v]
    refine Submodule.add_mem_sup (slide_mem_lineality hl pos hv) ?_
    rw [slide_apply, sub_sub_cancel]
    exact Submodule.smul_mem _ _ (Submodule.mem_span_singleton_self l)
  refine (Submodule.finrank_mono parts).trans ((Submodule.finrank_add_le_finrank_add_finrank _ _).trans ?_)
  exact Nat.add_le_add_left ((finrank_span_le_card _).trans (by simp)) _

end Halfspaces

/-! ## The enumeration -/

namespace Enumeration

variable {d k : ℕ} {cs : List (Row × Bool)} {e : Enumeration} {h : Row} {equality : Bool}

/-- The state describes the cone with no line too many, by normalized rays. -/
structure Reduced (d : ℕ) (cs : List (Row × Bool)) (k : ℕ) (e : Enumeration) :
    Prop extends Valid d cs k e where
  lineCount : e.lines.length ≤ Module.finrank ℚ ((halfspaces d cs).lineality k)
  normalized : ∀ r ∈ e.rays, ∃ v, r.vector = Row.normalized v

theorem reduced_start (d : ℕ) (cs : List (Row × Bool)) : Reduced d cs 0 (start d) := by
  refine ⟨valid_start d cs, ?_, fun r hr => absurd hr List.not_mem_nil⟩
  rw [← (valid_start d cs).lines, start, Row.span_units, finrank_top, Module.finrank_fin_fun, List.length_map,
    List.length_range]

theorem Reduced.splitLine (reduced : Reduced d cs k e) (at_k : cs[k]? = some (h, equality)) {i : ℕ}
    (hi : i < e.lines.length) (ne : Row.dot h e.lines[i] ≠ 0) :
    Reduced d cs (k + 1) (e.splitLine h equality e.lines[i] (e.lines.eraseIdx i)) := by
  have leads := reduced.leads at_k (List.getElem_mem hi) ne
  refine ⟨reduced.toValid.splitLine at_k hi ne, ?_, fun r hr => ?_⟩
  · have fewer := Halfspaces.finrank_lineality_le leads.member leads.positive
    have count := reduced.lineCount
    show ((e.lines.eraseIdx i).map _).length ≤ _
    rw [List.length_map, List.length_eraseIdx_of_lt hi]
    omega
  · rcases mem_splitLine.1 hr with ⟨s, -, rfl⟩ | ⟨-, rfl⟩
    · exact ⟨_, rfl⟩
    · exact ⟨_, rfl⟩

theorem Reduced.splitRays (reduced : Reduced d cs k e) (at_k : cs[k]? = some (h, equality))
    (zero : ∀ l ∈ e.lines, Row.dot h l = 0) : Reduced d cs (k + 1) (e.splitRays d h equality) := by
  have valid := reduced.toValid.splitRays at_k zero
  refine ⟨valid, ?_, fun r hr => ?_⟩
  · rw [← valid.lines]
    show e.lines.length ≤ Module.finrank ℚ (Submodule.span ℚ (vectors d e.lines))
    rw [reduced.lines]
    exact reduced.lineCount
  · rcases mem_foldl_addNew hr with old | new
    · obtain ⟨s, hs, ⟨-, rfl⟩ | ⟨-, -, rfl⟩⟩ := mem_kept.1 old
      · exact reduced.normalized s hs
      · exact reduced.normalized r hs
    · obtain ⟨i, p, j, n, -, -, -, -, -, rfl⟩ := mem_crossings.1 new
      exact ⟨_, rfl⟩

theorem Reduced.add (reduced : Reduced d cs k e) (at_k : cs[k]? = some (h, equality)) :
    Reduced d cs (k + 1) (e.add d h equality) := by
  unfold Enumeration.add
  split
  · rename_i i found
    obtain ⟨hi, nonzero, -⟩ := List.findIdx?_eq_some_iff_getElem.1 found
    rw [List.getD_eq_getElem _ _ hi]
    exact reduced.splitLine at_k hi (bne_iff_ne.1 nonzero)
  · rename_i none
    refine reduced.splitRays at_k fun l hl => ?_
    have := List.findIdx?_eq_none_iff.1 none l hl
    simpa using this

end Enumeration

/-! ## Minimal generators -/

open Enumeration (Generators generators halfspaces)

variable {n k : ℕ} {H : Halfspaces (Fin n → ℚ)} {rays lines : List Row} {r l : Row}

/-- Rows that generate a cone, with no ray and no line too many. -/
structure Minimal (H : Halfspaces (Fin n → ℚ)) (k : ℕ) (rays lines : List Row) : Prop where
  rayWidth : ∀ r ∈ rays, r.length = n
  lineWidth : ∀ l ∈ lines, l.length = n
  nodup : rays.Nodup
  describes : H.Describes k (vectors n rays)
  span : Submodule.span ℚ (vectors n lines) = H.lineality k
  lineCount : lines.length ≤ Module.finrank ℚ (H.lineality k)

/-- The generators found are minimal, and their rays are normalized. -/
theorem minimal_of_generators {maxRays : ℕ} {cs : List (Row × Bool)} {g : Generators}
    (found : generators maxRays n cs = .ok g) :
    Minimal (halfspaces n cs) cs.length g.rays g.lines ∧ ∀ r ∈ g.rays, ∃ v, r = Row.normalized v := by
  have spans := Enumeration.generators_spec found
  obtain ⟨e, reduced, rfl⟩ := Enumeration.exists_of_generators (Enumeration.reduced_start n cs)
    (fun at_k reduced => reduced.add at_k) found
  refine ⟨⟨spans.rayWidth, spans.lineWidth, reduced.nodup, reduced.describes, spans.lines, ?_⟩, ?_⟩
  · rw [List.length_map]
    exact reduced.lineCount
  · exact List.forall_mem_map.2 reduced.normalized

/-- The ray brought to height one, on vectors. -/
def heightOneVector (n : ℕ) (v : Fin n → ℚ) : Fin n → ℚ :=
  toVector n (DoubleDescription.atHeightOne (List.ofFn v))

theorem heightOneVector_toVector (width : r.length = n) :
    heightOneVector n (toVector n r) = toVector n (DoubleDescription.atHeightOne r) := by
  rw [heightOneVector, Row.ofFn_toVector width]

namespace Minimal

variable (minimal : Minimal H k rays lines)

include minimal

theorem line_mem (hl : l ∈ lines) : toVector n l ∈ H.lineality k := by
  rw [← minimal.span]
  exact Submodule.subset_span (toVector_mem_vectors hl)

/-- The lines are independent, as they are no more than the dimension of their space. -/
theorem independent : LinearIndependent ℚ fun i : Fin lines.length => toVector n lines[i] :=
  Row.linearIndependent_of_length_le (minimal.lineCount.trans_eq (by rw [minimal.span]))

theorem nodup_lines : lines.Nodup :=
  List.nodup_iff_injective_get.2 fun _ _ same => minimal.independent.injective (congrArg (toVector n) same)

/-- No line is in the span of the others. -/
theorem notMem_span_others (hl : l ∈ lines) :
    toVector n l ∉ Submodule.span ℚ {v | ∃ m ∈ lines, m ≠ l ∧ v = toVector n m} := by
  obtain ⟨i, hi, rfl⟩ := List.getElem_of_mem hl
  have apart := linearIndependent_iff_notMem_span.1 minimal.independent ⟨i, hi⟩
  refine fun mem => apart (Submodule.span_mono ?_ mem)
  rintro _ ⟨m, hm, ne, rfl⟩
  obtain ⟨j, hj, rfl⟩ := List.getElem_of_mem hm
  refine ⟨⟨j, hj⟩, ⟨Set.mem_univ _, fun same => ne ?_⟩, rfl⟩
  cases same
  rfl

theorem nodup_append : (rays ++ lines).Nodup :=
  minimal.nodup.append minimal.nodup_lines fun _ hr hl =>
    (minimal.describes.extreme _ (toVector_mem_vectors hr)).not_line (minimal.line_mem hl)

theorem atHeightOne (nonneg : ∀ r ∈ rays, 0 ≤ Row.entry r 0) :
    Minimal H k (rays.map DoubleDescription.atHeightOne) lines := by
  have multiple : ∀ v ∈ vectors n rays, ∃ c : ℚ, 0 < c ∧ heightOneVector n v = c • v := by
    rintro _ ⟨r, hr, rfl⟩
    rw [heightOneVector_toVector (minimal.rayWidth r hr)]
    exact DoubleDescription.exists_toVector_atHeightOne (nonneg r hr)
  have image : vectors n (rays.map DoubleDescription.atHeightOne) = heightOneVector n '' vectors n rays := by
    ext v
    constructor
    · rintro ⟨_, mem, rfl⟩
      obtain ⟨r, hr, rfl⟩ := List.mem_map.1 mem
      exact ⟨_, toVector_mem_vectors hr, heightOneVector_toVector (minimal.rayWidth r hr)⟩
    · rintro ⟨_, ⟨r, hr, rfl⟩, rfl⟩
      rw [heightOneVector_toVector (minimal.rayWidth r hr)]
      exact toVector_mem_vectors (List.mem_map_of_mem hr)
  refine ⟨?_, minimal.lineWidth, minimal.nodup.map_on fun r hr s hs same => ?_, ?_, minimal.span,
    minimal.lineCount⟩
  · refine List.forall_mem_map.2 fun r hr => ?_
    rw [DoubleDescription.length_atHeightOne, minimal.rayWidth r hr]
  · -- Rays that are brought to the same row are multiples of one another.
    obtain ⟨c, hc, scaled⟩ := DoubleDescription.exists_toVector_atHeightOne (n := n) (nonneg r hr)
    obtain ⟨c', -, scaled'⟩ := DoubleDescription.exists_toVector_atHeightOne (n := n) (nonneg s hs)
    rw [same, scaled', eq_comm] at scaled
    refine Row.toVector_injective (minimal.rayWidth r hr) (minimal.rayWidth s hs)
      (minimal.describes.apart _ (toVector_mem_vectors hr) _ (toVector_mem_vectors hs) (c⁻¹ * c') ?_)
    rw [mul_smul, ← scaled, inv_smul_smul₀ hc.ne', sub_self]
    exact Submodule.zero_mem _
  · rw [image]
    exact minimal.describes.image multiple

end Minimal

end Prevision
