import Prevision.Proofs.Polyhedron.Minimal

/-!
# Every stage of the enumeration

`stage d cs k` is the state of the enumeration after the first `k` constraints.
Its lines are a basis of the lines in the cone that these cut out, and its rays
are the extreme rays of that cone, one for each direction up to lines, with
exactly the constraints that they meet with equality (`stage_exact`).

* `reduced_stage`: the induction on the constraints, from what each step keeps;
* `Valid.listsExtreme`: rays that describe the cone are all its extreme rays;
* `addAll_eq`: the loop passes through the stages, unless one has too many rays.
-/

namespace Prevision.Enumeration

open Row (toVector vectors)

variable {d k : ℕ} {cs : List (Row × Bool)} {e : Enumeration} {h : Row} {equality : Bool}

/-- The state after adding constraints in turn. -/
def addEach (d : ℕ) (cs : List (Row × Bool)) (e : Enumeration) : Enumeration :=
  cs.foldl (fun e c => e.add d c.1 c.2) e

/-- The state after the first `k` constraints. -/
def stage (d : ℕ) (cs : List (Row × Bool)) (k : ℕ) : Enumeration := addEach d (cs.take k) (start d)

theorem stage_succ (at_k : cs[k]? = some (h, equality)) :
    stage d cs (k + 1) = (stage d cs k).add d h equality := by
  rw [stage, addEach, List.take_add_one, at_k, List.foldl_append]
  rfl

/-- The induction is on the number of constraints. -/
theorem reduced_stage (d : ℕ) (cs : List (Row × Bool)) (hk : k ≤ cs.length) :
    Reduced d cs k (stage d cs k) := by
  induction k with
  | zero => exact reduced_start d cs
  | succ k ih =>
    have at_k : cs[k]? = some (cs[k].1, cs[k].2) := List.getElem?_eq_getElem hk
    rw [stage_succ at_k]
    exact (ih (Nat.le_of_succ_le hk)).add at_k

/-- Adding constraints in turn stops at the first state with too many rays. -/
theorem addAll_eq (maxRays d : ℕ) (cs : List (Row × Bool)) (e : Enumeration) : addAll maxRays d cs e =
    if ∀ k < cs.length, (addEach d (cs.take (k + 1)) e).rays.length ≤ maxRays then .ok (addEach d cs e)
    else .error (.enumerationLimit maxRays) := by
  induction cs generalizing e with
  | nil => exact (if_pos fun k hk => absurd hk (Nat.not_lt_zero k)).symm
  | cons c rest ih =>
    rw [addAll]
    split
    · rename_i many
      rw [if_neg fun all => absurd (all 0 (Nat.succ_pos _)) (not_le.2 many)]
    · rename_i few
      rw [ih]
      refine if_congr ?_ rfl rfl
      rw [List.length_cons, Nat.forall_lt_succ_left]
      exact (and_iff_right (not_lt.1 few)).symm

/-- The rays are the extreme rays of the cone of the first `k` constraints, one for each direction up to
lines, and each comes with the constraints that it meets with equality. -/
structure ListsExtreme (d : ℕ) (cs : List (Row × Bool)) (k : ℕ) (rays : List ExtremeRay) : Prop where
  width : ∀ r ∈ rays, r.vector.length = d
  tight : ∀ r ∈ rays, ∀ i, i ∈ r.tight ↔ i ∈ (halfspaces d cs).tight k (toVector d r.vector)
  extreme : ∀ r ∈ rays, (halfspaces d cs).Extreme k (toVector d r.vector)
  complete : ∀ v, (halfspaces d cs).Extreme k v →
    ∃ r ∈ rays, ∃ a : ℚ, v - a • toVector d r.vector ∈ (halfspaces d cs).lineality k
  apart : ∀ {i j : ℕ} {r s : ExtremeRay} {a : ℚ}, rays[i]? = some r → rays[j]? = some s →
    toVector d r.vector - a • toVector d s.vector ∈ (halfspaces d cs).lineality k → i = j

theorem Valid.listsExtreme (valid : Valid d cs k e) : ListsExtreme d cs k e.rays := by
  refine ⟨valid.rayWidth, valid.tight,
    fun r hr => valid.describes.extreme _ (mem_vectors_rays.2 ⟨r, hr, rfl⟩),
    fun v extreme => ?_, fun {i j r s a} at_i at_j near => ?_⟩
  · obtain ⟨_, hs, a, near⟩ :=
      extreme.exists_multiple valid.describes.subset_cone (valid.describes.generates v extreme.mem)
    obtain ⟨r, hr, rfl⟩ := mem_vectors_rays.1 hs
    exact ⟨r, hr, a, near⟩
  · refine valid.eq_of_vector at_i at_j (valid.describes.apart _ ?_ _ ?_ a near)
    · exact mem_vectors_rays.2 ⟨r, List.mem_of_getElem? at_i, rfl⟩
    · exact mem_vectors_rays.2 ⟨s, List.mem_of_getElem? at_j, rfl⟩

/-- The lines are a basis of the lines in the cone of the first `k` constraints, the rays are its extreme
rays, and together they generate this cone and nothing else. -/
structure Exact (d : ℕ) (cs : List (Row × Bool)) (k : ℕ) (e : Enumeration) : Prop where
  lineWidth : ∀ l ∈ e.lines, l.length = d
  independent : LinearIndependent ℚ fun i : Fin e.lines.length => toVector d e.lines[i]
  lines : Submodule.span ℚ (vectors d e.lines) = (halfspaces d cs).lineality k
  rays : ListsExtreme d cs k e.rays
  nonzero : ∀ r ∈ e.rays, toVector d r.vector ≠ 0
  generates : ∀ y, y ∈ (halfspaces d cs).cone k ↔
    Generated (vectors d (e.rays.map ExtremeRay.vector)) ((halfspaces d cs).lineality k) y

theorem Exact.finrank_lineality (exact : Exact d cs k e) :
    Module.finrank ℚ ((halfspaces d cs).lineality k) = e.lines.length := by
  rw [← exact.lines, Row.finrank_span_of_linearIndependent exact.independent]

theorem Reduced.exact (reduced : Reduced d cs k e) : Exact d cs k e := by
  have rays := reduced.listsExtreme
  refine ⟨reduced.lineWidth, Row.linearIndependent_of_length_le ?_, reduced.lines, rays, fun r hr zero => ?_,
    fun y => ⟨reduced.describes.generates y, Halfspaces.mem_cone_of_generated reduced.describes.subset_cone⟩⟩
  · rw [reduced.lines]
    exact reduced.lineCount
  · refine (rays.extreme r hr).not_line ?_
    rw [zero]
    exact Submodule.zero_mem _

/-- After any number of constraints, the lines are a basis of the lines in the cone that these cut out, the
rays are its extreme rays, each with the constraints that it meets with equality, and together they generate
this cone. The loop goes through these states, and fails at the first with too many rays. -/
theorem stage_exact (maxRays d : ℕ) (cs : List (Row × Bool)) :
    (∀ k ≤ cs.length, Exact d cs k (stage d cs k)) ∧
      addAll maxRays d cs (start d) =
        if ∀ k < cs.length, (stage d cs (k + 1)).rays.length ≤ maxRays then .ok (stage d cs cs.length)
        else .error (.enumerationLimit maxRays) := by
  refine ⟨fun k hk => (reduced_stage d cs hk).exact, ?_⟩
  rw [addAll_eq, stage, List.take_length]
  rfl

/-- A quarter of a plane, with a constraint that the others imply. -/
def quarter : List (Row × Bool) :=
  [([0, 0, 2], true), ([1, 0, 0], false), ([1, 1, 0], false), ([0, 1, 0], false)]

theorem stage_exact_quarter :
    Exact 3 quarter 3 (stage 3 quarter 3) ∧ Exact 3 quarter 4 (stage 3 quarter 4) ∧
      (stage 3 quarter 3).rays = [⟨[1, -1, 0], [0, 2]⟩, ⟨[0, 1, 0], [0, 1]⟩] ∧
      (stage 3 quarter 4).rays = [⟨[0, 1, 0], [0, 1]⟩, ⟨[1, 0, 0], [0, 3]⟩] :=
  ⟨(stage_exact 4 3 quarter).1 3 (by decide), (stage_exact 4 3 quarter).1 4 (by decide), by decide +kernel,
    by decide +kernel⟩

end Prevision.Enumeration
