import Prevision.Proofs.Polyhedron.Faces
import Prevision.Proofs.Polyhedron.Stages

/-!
# The test of adjacency is exact

Two extreme rays are adjacent if the smallest face that contains both is two
dimensions larger than the space of lines. `areAdjacent` does not compute
dimensions. It only asks whether some third ray meets all the constraints that
both meet, after it has counted these constraints. On a list of all extreme rays
this is exact (`areAdjacent_iff_finrank`): the rays in the face generate it, so
that it is larger if there is a third one, and the constraints that cut it out
are at least as many as their rank, so that the count never decides.

Redundant, repeated and zero constraints only add to the sets that are compared.
-/

namespace Prevision.Enumeration

open Halfspaces (dimension)
open Row (toVector vectors)

variable {d k : ℕ} {cs : List (Row × Bool)} {rays : List ExtremeRay} {i j : ℕ} {p n : ExtremeRay}

namespace ListsExtreme

variable (lists : ListsExtreme d cs k rays)

include lists

theorem eq_of_vector (at_i : rays[i]? = some p) (at_j : rays[j]? = some n)
    (same : toVector d p.vector = toVector d n.vector) : i = j := by
  refine lists.apart (a := 1) at_i at_j ?_
  rw [one_smul, same, sub_self]
  exact Submodule.zero_mem _

/-- The rays that the enumeration finds generate the cone, and each is a multiple of one in the list. -/
theorem describes (hk : k ≤ cs.length) :
    (halfspaces d cs).Describes k (vectors d (rays.map ExtremeRay.vector)) := by
  have found := (reduced_stage d cs hk).describes
  refine ⟨fun y hy => (found.generates y hy).trans (fun v hv => ?_) le_rfl, fun v hv => ?_,
    fun v hv w hw a near => ?_⟩
  · have extreme := found.extreme v hv
    obtain ⟨r, hr, a, near⟩ := lists.complete v extreme
    have pos := Halfspaces.pos_of_multiple extreme.mem extreme.not_line (lists.extreme r hr).mem near
    rw [← add_sub_cancel (a • toVector d r.vector) v]
    exact (Generated.ray (mem_vectors_rays.2 ⟨r, hr, rfl⟩) pos.le).add_line near
  · obtain ⟨r, hr, rfl⟩ := mem_vectors_rays.1 hv
    exact lists.extreme r hr
  · obtain ⟨r, hr, rfl⟩ := mem_vectors_rays.1 hv
    obtain ⟨s, hs, rfl⟩ := mem_vectors_rays.1 hw
    obtain ⟨i, at_i⟩ := List.mem_iff_getElem?.1 hr
    obtain ⟨j, at_j⟩ := List.mem_iff_getElem?.1 hs
    obtain rfl := lists.apart at_i at_j near
    rw [Option.some.inj (at_i.symm.trans at_j)]

/-- Whether there is a third ray, by positions and by vectors. -/
theorem third_iff (at_i : rays[i]? = some p) (at_j : rays[j]? = some n) :
    (∀ m r, rays[m]? = some r → (∀ c ∈ p.tight, c ∈ n.tight → c ∈ r.tight) → m = i ∨ m = j) ↔
      ∀ v ∈ vectors d (rays.map ExtremeRay.vector), (halfspaces d cs).tight k (toVector d p.vector) ∩
        (halfspaces d cs).tight k (toVector d n.vector) ⊆ (halfspaces d cs).tight k v →
        v = toVector d p.vector ∨ v = toVector d n.vector := by
  have shared {r : ExtremeRay} (hr : r ∈ rays) := inter_subset_iff (lists.tight p (List.mem_of_getElem? at_i))
    (lists.tight n (List.mem_of_getElem? at_j)) (lists.tight r hr)
  constructor
  · intro third v hv sub
    obtain ⟨r, hr, rfl⟩ := mem_vectors_rays.1 hv
    obtain ⟨m, at_m⟩ := List.mem_iff_getElem?.1 hr
    rcases third m r at_m ((shared hr).1 sub) with rfl | rfl
    · exact .inl (by rw [Option.some.inj (at_m.symm.trans at_i)])
    · exact .inr (by rw [Option.some.inj (at_m.symm.trans at_j)])
  · intro third m r at_m sub
    have hr := List.mem_of_getElem? at_m
    exact (third _ (mem_vectors_rays.2 ⟨r, hr, rfl⟩) ((shared hr).2 sub)).imp
      (lists.eq_of_vector at_m at_i) (lists.eq_of_vector at_m at_j)

/-- The constraints that two rays share, as those that their sum meets. -/
theorem shared_forms (at_i : rays[i]? = some p) (at_j : rays[j]? = some n) :
    {f : Module.Dual ℚ (Fin d → ℚ) |
        ∃ c ∈ (halfspaces d cs).tight k (toVector d p.vector + toVector d n.vector),
          f = (halfspaces d cs).form c} =
      {f | ∃ c ∈ p.tight, c ∈ n.tight ∧ f = (halfspaces d cs).form c} := by
  have hp := List.mem_of_getElem? at_i
  have hn := List.mem_of_getElem? at_j
  simp only [Halfspaces.tight_add (lists.extreme p hp).mem (lists.extreme n hn).mem, Finset.mem_inter,
    ← lists.tight p hp, ← lists.tight n hn, and_assoc]

end ListsExtreme

/-- On a list of all extreme rays, the test for two of them is true exactly if the smallest face that contains
both is two dimensions larger than the space of lines, and exactly if the constraints that both meet have the
rank that leaves these dimensions. The number of these constraints is then never too small. -/
theorem areAdjacent_iff_finrank (hk : k ≤ cs.length) {l : ℕ}
    (lines : Module.finrank ℚ ((halfspaces d cs).lineality k) = l) (lists : ListsExtreme d cs k rays)
    (at_i : rays[i]? = some p) (at_j : rays[j]? = some n) (ne : i ≠ j) :
    ∃ F : PointedCone ℚ (Fin d → ℚ),
      IsLeast ((halfspaces d cs).facesThrough k (toVector d p.vector) (toVector d n.vector)) F ∧
      (areAdjacent rays (i, p) (j, n) (d - (l + 2)) = true ↔ dimension F = l + 2) ∧
      (areAdjacent rays (i, p) (j, n) (d - (l + 2)) = true ↔
        Module.finrank ℚ (Submodule.span ℚ {f : Module.Dual ℚ (Fin d → ℚ) |
          ∃ c ∈ p.tight, c ∈ n.tight ∧ f = (halfspaces d cs).form c}) + (l + 2) = d) ∧
      (dimension F = l + 2 → d - (l + 2) ≤ (p.tight.filter n.tight.contains).length) := by
  have hp := List.mem_of_getElem? at_i
  have hn := List.mem_of_getElem? at_j
  have coneP := (lists.extreme p hp).mem
  have coneN := (lists.extreme n hn).mem
  have third :=
    (lists.third_iff at_i at_j).trans ((lists.describes hk).third_iff (mem_vectors_rays.2 ⟨p, hp, rfl⟩)
    (mem_vectors_rays.2 ⟨n, hn, rfl⟩) fun same => ne (lists.eq_of_vector at_i at_j same))
  have few := card_inter_le (lists.tight p hp) (lists.tight n hn)
  have least := Halfspaces.isLeast_face coneP coneN
  rw [← Halfspaces.tight_add coneP coneN] at third few least
  have whole := Halfspaces.finrank_face (Halfspaces.add_mem_cone coneP coneN)
  have rank := (halfspaces d cs).finrank_span_forms_le
    ((halfspaces d cs).tight k (toVector d p.vector + toVector d n.vector))
  rw [lists.shared_forms at_i at_j] at whole rank
  rw [Module.finrank_fin_fun] at whole
  have count {a b c : ℕ} (sum : b + a = d) (few : b ≤ c) :
      (d - (l + 2) ≤ c ∧ a = l + 2 ↔ a = l + 2) ∧ (d - (l + 2) ≤ c ∧ a = l + 2 ↔ b + (l + 2) = d) ∧
        (a = l + 2 → d - (l + 2) ≤ c) := by
    omega
  rw [areAdjacent_iff, third, lines]
  exact ⟨_, least, count whole (rank.trans few)⟩

/-- The cone over a square, times a line, with a constraint that is zero and one that is given twice. -/
def squareCone : List (Row × Bool) :=
  [([0, 0, 0, 0], false), ([1, 0, 1, 0], false), ([-1, 0, 1, 0], false), ([0, 1, 1, 0], false),
    ([0, -1, 1, 0], false), ([2, 0, 2, 0], false)]

/-- Rays of a side share two constraints and are adjacent. Opposite rays share the constraint that
is zero, which is as many as are required, and are not. -/
theorem areAdjacent_iff_finrank_squareCone :
    let H := halfspaces 4 squareCone
    let rays := (stage 4 squareCone 6).rays
    let p : ExtremeRay := ⟨[1, -1, 1, 0], [0, 2, 3]⟩
    let n : ExtremeRay := ⟨[-1, -1, 1, 0], [0, 1, 3, 5]⟩
    let o : ExtremeRay := ⟨[-1, 1, 1, 0], [0, 1, 4, 5]⟩
    6 ≤ squareCone.length ∧ Module.finrank ℚ (H.lineality 6) = 1 ∧ ListsExtreme 4 squareCone 6 rays ∧
    rays[0]? = some p ∧ rays[1]? = some n ∧ rays[3]? = some o ∧
    (∃ F, IsLeast (H.facesThrough 6 (toVector 4 p.vector) (toVector 4 n.vector)) F ∧ dimension F = 1 + 2) ∧
    ∃ F, IsLeast (H.facesThrough 6 (toVector 4 p.vector) (toVector 4 o.vector)) F ∧ dimension F ≠ 1 + 2 := by
  intro H rays p n o
  have stage := (reduced_stage 4 squareCone (k := 6) (by decide)).exact
  have lines : Module.finrank ℚ (H.lineality 6) = 1 := stage.finrank_lineality.trans (by decide +kernel)
  have at_p : rays[0]? = some p := by decide +kernel
  have at_n : rays[1]? = some n := by decide +kernel
  have at_o : rays[3]? = some o := by decide +kernel
  have side : areAdjacent rays (0, p) (1, n) (4 - (1 + 2)) = true := by decide +kernel
  have opposite : areAdjacent rays (0, p) (3, o) (4 - (1 + 2)) ≠ true := by decide +kernel
  obtain ⟨F, least, test, -⟩ := areAdjacent_iff_finrank (by decide) lines stage.rays at_p at_n (by decide)
  obtain ⟨G, least', test', -⟩ := areAdjacent_iff_finrank (by decide) lines stage.rays at_p at_o (by decide)
  exact ⟨by decide, lines, stage.rays, at_p, at_n, at_o, ⟨F, least, test.1 side⟩, G, least',
    test'.not.1 opposite⟩

end Prevision.Enumeration
