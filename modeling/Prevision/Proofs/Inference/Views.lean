import Prevision.Proofs.Inference.Assessments
import Prevision.Proofs.Model.Directions

/-!
# Sets of desirable gambles as sets of sets of directions

A direction is the set of all positive multiples of a payoff. A cone is given by the
directions of its rays (`Cone.directions_injective`), and so a set of desirable
gambles by a set of nonempty sets of directions, its view
(`DesirabilitySet.directions_mem_view`). Each operation on the set is one on the
view, whichever of the parallel gambles it is called with.
-/

namespace Prevision

variable {σ : Type} [State σ]

/-- The positive multiples of a function. -/
def direction {V : Type*} [AddCommGroup V] [Module ℚ V] (u : V) : Set V := {v | Parallel v u}

theorem direction_eq_iff {V : Type*} [AddCommGroup V] [Module ℚ V] {u v : V} :
    direction u = direction v ↔ Parallel u v := by
  constructor
  · intro same
    have mem : u ∈ direction u := Parallel.refl u
    rwa [same] at mem
  · intro parallel
    exact Set.ext fun w => ⟨fun h => h.trans parallel, fun h => h.trans parallel.symm⟩

namespace Cone

variable {C C' : Cone σ} {d : Set (σ → ℚ)}

/-- The directions of the rays. -/
def directions (C : Cone σ) : Set (Set (σ → ℚ)) := {d | ∃ r ∈ C.rays, direction r.payoff = d}

theorem directions_injective (same : C.directions = C'.directions) : C = C' := by
  have within {C C' : Cone σ} (same : C.directions = C'.directions) : ∀ r ∈ C.rays, r ∈ C'.rays :=
    fun r hr => by
    have mem : direction r.payoff ∈ C'.directions := same ▸ ⟨r, hr, rfl⟩
    obtain ⟨s, hs, parallel⟩ := mem
    rwa [← Ray.eq_of_parallel (direction_eq_iff.1 parallel)]
  exact rays_injective (SortedSet.ext fun r => ⟨within same r, within same.symm r⟩)

theorem directions_nonempty_iff : C.directions.Nonempty ↔ C.isEmpty = false := by
  refine Iff.trans ?_ SortedSet.isEmpty_eq_false_iff.symm
  constructor
  · rintro ⟨d, r, hr, -⟩
    exact ⟨r, hr⟩
  · rintro ⟨r, hr⟩
    exact ⟨_, r, hr, rfl⟩

theorem directions_singleton (r : Ray σ) : (Cone.singleton r).directions = {direction r.payoff} := by
  ext d
  constructor
  · rintro ⟨s, hs, rfl⟩
    rw [SortedSet.mem_singleton.1 hs]
    rfl
  · rintro rfl
    exact ⟨r, SortedSet.mem_singleton.2 rfl, rfl⟩

end Cone

namespace DesirabilitySet

variable {D : DesirabilitySet σ} {C : Cone σ} {f : Gamble σ} {v : ℚ}

/-- The sets of directions of the cones. -/
def view (D : DesirabilitySet σ) : Set (Set (Set (σ → ℚ))) := {c | ∃ C ∈ D.cones, C.directions = c}

theorem directions_mem_view : C.directions ∈ D.view ↔ C ∈ D.cones := by
  constructor
  · rintro ⟨A, hA, same⟩
    rwa [← Cone.directions_injective same]
  · intro hC
    exact ⟨C, hC, rfl⟩

/-- The sets of directions that some cones add. -/
def viewOf (Cs : List (Cone σ)) : Set (Set (Set (σ → ℚ))) := {c | c.Nonempty ∧ ∃ C ∈ Cs, C.directions = c}

theorem view_insertAll (D : DesirabilitySet σ) (Cs : List (Cone σ)) :
    (D.insertAll Cs).view = D.view ∪ viewOf Cs := by
  ext c
  constructor
  · rintro ⟨C, hC, rfl⟩
    rcases mem_cones_insertAll.1 hC with old | ⟨mem, rays⟩
    · exact .inl ⟨C, old, rfl⟩
    · exact .inr ⟨Cone.directions_nonempty_iff.2 rays, C, mem, rfl⟩
  · rintro (⟨C, hC, rfl⟩ | ⟨rays, C, mem, rfl⟩)
    · exact ⟨C, mem_cones_insertAll.2 (.inl hC), rfl⟩
    · exact ⟨C, mem_cones_insertAll.2 (.inr ⟨mem, Cone.directions_nonempty_iff.1 rays⟩), rfl⟩

theorem viewOf_singleton (rays : C.isEmpty = false) : viewOf [C] = {C.directions} := by
  ext c
  simp only [viewOf, List.mem_singleton, exists_eq_left, Set.mem_ofPred_eq, Set.mem_singleton_iff,
    eq_comm (a := c)]
  exact and_iff_right_of_imp fun same => same ▸ Cone.directions_nonempty_iff.2 rays

theorem view_insert (D : DesirabilitySet σ) (rays : C.isEmpty = false) :
    (D.insert C).view = D.view ∪ {C.directions} :=
  (D.view_insertAll [C]).trans (congrArg (D.view ∪ ·) (viewOf_singleton rays))

theorem view_empty : (empty : DesirabilitySet σ).view = ∅ := Set.eq_empty_of_forall_notMem fun _ ⟨_, hC, _⟩ =>
  SortedSet.not_mem_empty hC

theorem view_ofCones (Cs : List (Cone σ)) : (ofCones Cs).view = viewOf Cs := by
  rw [ofCones, view_insertAll, view_empty, Set.empty_union]

theorem view_vacuous (event : SortedSet σ) :
    (vacuous event).view = {c | ∃ x ∈ event, {direction (Gamble.indicator (.singleton x)).payoff} = c} := by
  ext c
  constructor
  · rintro ⟨C, hC, rfl⟩
    obtain ⟨x, hx, rfl⟩ := mem_cones_vacuous.1 hC
    exact ⟨x, hx, (Cone.directions_singleton (.unit x)).symm⟩
  · rintro ⟨x, hx, rfl⟩
    exact ⟨_, mem_cones_vacuous.2 ⟨x, hx, rfl⟩, Cone.directions_singleton (.unit x)⟩

theorem view_erase (D : DesirabilitySet σ) (C : Cone σ) : (D.erase C).view = D.view \ {C.directions} := by
  ext c
  constructor
  · rintro ⟨A, hA, rfl⟩
    obtain ⟨mem, ne⟩ := SortedSet.mem_erase.1 hA
    exact ⟨⟨A, mem, rfl⟩, fun same => ne (Cone.directions_injective same)⟩
  · rintro ⟨⟨A, mem, rfl⟩, ne⟩
    exact ⟨A, SortedSet.mem_erase.2 ⟨mem, fun same => ne (same ▸ rfl)⟩, rfl⟩

theorem directions_of_ofGamble {r : Ray σ} (direct : Ray.ofGamble f = .ok r) :
    (Cone.singleton r).directions = {direction f.payoff} := by
  rw [Cone.directions_singleton, direction_eq_iff.2 (Ray.ofGamble_eq_ok_iff.1 direct)]

theorem notMem_view_of_zero (zero : f.payoff = 0) : {direction f.payoff} ∉ D.view := by
  rintro ⟨C, hC, same⟩
  obtain ⟨r, hr⟩ := SortedSet.isEmpty_eq_false_iff.1 (D.nonempty C hC)
  have mem : direction r.payoff ∈ C.directions := ⟨r, hr, rfl⟩
  rw [same] at mem
  exact r.payoff_ne_zero ((direction_eq_iff.1 mem).eq_zero_iff.2 zero)

theorem view_eraseGamble (D : DesirabilitySet σ) (f : Gamble σ) :
    (D.eraseGamble f).view = D.view \ {{direction f.payoff}} := by
  by_cases zero : f.payoff = 0
  · rw [eraseGamble, gambleCone?, Ray.ofGamble_eq_error zero,
      Set.sdiff_singleton_eq_self (notMem_view_of_zero zero)]
  · obtain ⟨r, direct, -⟩ := Ray.exists_parallel zero
    have directions := directions_of_ofGamble direct
    rw [eraseGamble, gambleCone?, direct, ← directions]
    by_cases found : D.contains (.singleton r) = true
    · simp only [if_pos found]
      exact D.view_erase _
    · simp only [if_neg found]
      rw [Set.sdiff_singleton_eq_self]
      exact fun mem => found (SortedSet.contains_iff.2 (directions_mem_view.1 mem))

/-- The directions among the indicator of the domain of a gamble and what the gamble pays there
beyond a value. -/
def assessed (f : Gamble σ) (v : ℚ) : Set (Set (σ → ℚ)) :=
  {d | ∃ u, (u = (Gamble.indicator f.domain).payoff ∨ u = (f.shift (-v)).payoff) ∧ u ≠ 0 ∧ direction u = d}

end DesirabilitySet

theorem Cone.Assesses.directions_eq {C : Cone σ} {f : Gamble σ} {v : ℚ}
    (assesses : C.Assesses f.domain (f.shift (-v)).payoff) :
    C.directions = DesirabilitySet.assessed f v := by
  ext d
  constructor
  · rintro ⟨r, hr, rfl⟩
    rcases assesses.ray r hr with indicator | parallel
    · exact ⟨r.payoff, .inl indicator, r.payoff_ne_zero, rfl⟩
    · exact ⟨_, .inr rfl, mt parallel.eq_zero_iff.1 r.payoff_ne_zero, direction_eq_iff.2 parallel⟩
  · rintro ⟨u, rfl | rfl, ne, rfl⟩
    · obtain ⟨r, hr, indicator⟩ := assesses.exists_indicator
      exact ⟨r, hr, congrArg direction indicator⟩
    · obtain ⟨r, hr, parallel⟩ := assesses.exists_margin.resolve_left ne
      exact ⟨r, hr, direction_eq_iff.2 parallel.symm⟩

end Prevision
