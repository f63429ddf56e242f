import Prevision.Numeral.Quantity
import Prevision.Proofs.Inference.Views

/-!
# Changes of a set of desirable gambles

A set of desirable gambles is changed in place, step by step, and a change that
fails keeps what its earlier steps have made (`Change.make`). Nevertheless each
change is made as a whole or not at all (`Change.exists_step_eq`): what may fail comes before
the first step, and of the two assessments of a prevision the second succeeds where
the first one does, since both are about the same event.

Whatever the changes are, the set behaves as a set of finite sets of directions. A
change removes some of these and adds others, which depend on the change alone
(`Change.view_step`), and a cone is stored for each that is left
(`Change.run_behaves`).
-/

namespace Prevision

variable {σ : Type} [State σ]

/-! ## Changes in place -/

/-- Changes a set of desirable gambles in place. A failure keeps what has been changed before it. -/
abbrev InPlace (σ : Type) [State σ] := ExceptT Error (StateM (DesirabilitySet σ))

namespace InPlace

/-- The answer of a change in place, and the set after it. -/
def exec {α : Type} (x : InPlace σ α) (D : DesirabilitySet σ) : Except Error α × DesirabilitySet σ :=
  (x.run.run D).run

/-- Inserts a cone, unless it has no rays, and answers whether it was inserted. -/
def insert (C : Cone σ) : InPlace σ Bool := do
  let D ← get
  set (D.insert C)
  return !C.isEmpty && !D.contains C

/-- Assesses the lower prevision of `f` as `v`. -/
def assessLower (f : Gamble σ) (v : ℚ) : InPlace σ Unit := do
  let C ← DesirabilitySet.lowerPrevisionCone f v
  discard (insert C)

end InPlace

/-- A change of a set of desirable gambles: a new one in its place, or an assessment more or less. -/
inductive Change (σ : Type) [State σ] where
  | new
  | vacuous (event : SortedSet σ)
  | ofCones (Cs : List (Cone σ))
  | extend (Cs : List (Cone σ))
  | add (f : Gamble σ)
  | addCone (C : Cone σ)
  | discard (f : Gamble σ)
  | discardCone (C : Cone σ)
  | setLowerPrevision (f : Gamble σ) (v : Quantity)
  | setUpperPrevision (f : Gamble σ) (v : Quantity)
  | setPrevision (f : Gamble σ) (v : Quantity)

namespace Change

/-- Makes a change in place, and answers whether a cone that is inserted is new, or one that is
removed was there. -/
def make : Change σ → InPlace σ (Option Bool)
  | new => do
    set (.empty : DesirabilitySet σ)
    return none
  | vacuous event => do
    set (DesirabilitySet.vacuous event)
    return none
  | ofCones Cs => do
    set (DesirabilitySet.ofCones Cs)
    return none
  | extend Cs => do
    modify (·.insertAll Cs)
    return none
  | add f => do
    let r ← Ray.ofGamble f
    return some (← InPlace.insert (.singleton r))
  | addCone C => return some (← InPlace.insert C)
  | discard f => do
    let D ← get
    set (D.eraseGamble f)
    return some (D.gambleCone? f).isSome
  | discardCone C => do
    let D ← get
    set (D.erase C)
    return some (D.contains C)
  | setLowerPrevision f v => do
    let v ← v.toRational
    InPlace.assessLower f v
    return none
  | setUpperPrevision f v => do
    let v ← v.toRational
    InPlace.assessLower (-f) (-v)
    return none
  | setPrevision f v => do
    let v ← v.toRational
    InPlace.assessLower f v
    InPlace.assessLower (-f) (-v)
    return none

/-- The answer and the set after a change. -/
def step (change : Change σ) (D : DesirabilitySet σ) : Except Error (Option Bool) × DesirabilitySet σ :=
  change.make.exec D

/-- The set that a change gives as a whole. -/
def whole (D : DesirabilitySet σ) : Change σ → Except Error (DesirabilitySet σ)
  | new => .ok .empty
  | vacuous event => .ok (.vacuous event)
  | ofCones Cs => .ok (.ofCones Cs)
  | extend Cs => .ok (D.insertAll Cs)
  | add f => D.insertGamble f
  | addCone C => .ok (D.insert C)
  | discard f => .ok (D.eraseGamble f)
  | discardCone C => .ok (D.erase C)
  | setLowerPrevision f v => v.toRational >>= D.setLowerPrevision f
  | setUpperPrevision f v => v.toRational >>= D.setUpperPrevision f
  | setPrevision f v => v.toRational >>= D.setPrevision f

variable {D D' : DesirabilitySet σ} {change : Change σ} {f : Gamble σ} {v : ℚ} {e : Error}

theorem exec_bind {α β : Type} (x : InPlace σ α) (k : α → InPlace σ β) (D : DesirabilitySet σ) :
    InPlace.exec (x >>= k) D = match x.exec D with
      | (.ok a, D') => (k a).exec D'
      | (.error e, D') => (.error e, D') := by
  have first : x.run.run D = pure (x.exec D) := rfl
  rw [InPlace.exec, ExceptT.run_bind, StateT.run_bind, first, pure_bind]
  rcases x.exec D with ⟨e | a, D'⟩ <;> rfl

theorem exec_assessLower {α : Type} (f : Gamble σ) (v : ℚ) (k : InPlace σ α) (D : DesirabilitySet σ) :
    InPlace.exec (do InPlace.assessLower f v; k) D = match D.setLowerPrevision f v with
      | .ok D' => k.exec D'
      | .error e => (.error e, D) := by
  rw [exec_bind, InPlace.assessLower, DesirabilitySet.setLowerPrevision]
  cases DesirabilitySet.lowerPrevisionCone f v <;> rfl

/-- A change after which nothing has to be undone: the new set with an answer, or the old one with
a failure. -/
def commit {α : Type} (answer : α) (D : DesirabilitySet σ) :
    Except Error (DesirabilitySet σ) → Except Error α × DesirabilitySet σ
  | .ok D' => (.ok answer, D')
  | .error e => (.error e, D)

/-- The indicator of no event has no direction. -/
theorem setLowerPrevision_eq_error (none : f.domain.isEmpty = true) (v : ℚ) (D : DesirabilitySet σ) :
    D.setLowerPrevision f v = .error .degenerateRay := by
  have zero : (Gamble.indicator f.domain).payoff = 0 := funext fun x => by
    rw [Gamble.payoff_indicator, if_neg (SortedSet.eq_empty_iff.1 none x)]
    rfl
  rw [DesirabilitySet.setLowerPrevision, DesirabilitySet.lowerPrevisionCone, Ray.indicator,
    Ray.ofGamble_eq_error zero]
  rfl

theorem exec_assessLower_return {α : Type} (f : Gamble σ) (v : ℚ) (answer : α) (D : DesirabilitySet σ) :
    InPlace.exec (do InPlace.assessLower f v; return answer) D =
      commit answer D (D.setLowerPrevision f v) := by
  rw [exec_assessLower]
  cases D.setLowerPrevision f v <;> rfl

/-- The second assessment of a prevision succeeds where the first one does, since both are about one event. -/
theorem exists_setPrevision (event : f.domain.isEmpty = false) (D : DesirabilitySet σ) (v : ℚ) :
    ∃ C C', C.Assesses f.domain (f.shift (-v)).payoff ∧ C'.Assesses (-f).domain ((-f).shift (- -v)).payoff ∧
      D.setLowerPrevision f v = .ok (D.insert C) ∧
      (D.insert C).setUpperPrevision f v = .ok ((D.insert C).insert C') := by
  have event' : (-f).domain.isEmpty = false := by rwa [Gamble.domain_neg]
  obtain ⟨C, lower, done⟩ := DesirabilitySet.exists_setLowerPrevision event D v
  obtain ⟨C', upper, done'⟩ := DesirabilitySet.exists_setLowerPrevision event' (D.insert C) (-v)
  exact ⟨C, C', lower, upper, done, done'⟩

theorem exec_assessBoth {α : Type} (f : Gamble σ) (v : ℚ) (answer : α) (D : DesirabilitySet σ) :
    InPlace.exec (do InPlace.assessLower f v; InPlace.assessLower (-f) (-v); return answer) D =
      commit answer D (D.setPrevision f v) := by
  rw [exec_assessLower, DesirabilitySet.setPrevision]
  cases event : f.domain.isEmpty with
  | true =>
    rw [setLowerPrevision_eq_error event]
    rfl
  | false =>
    obtain ⟨C, C', -, -, done, done'⟩ := exists_setPrevision event D v
    rw [done]
    show InPlace.exec _ (D.insert C) = commit answer D ((D.insert C).setUpperPrevision f v)
    rw [exec_assessLower_return, done', show (D.insert C).setLowerPrevision (-f) (-v) = _ from done']
    rfl

/-- A value that is no number changes nothing. -/
theorem exec_value {α : Type} {answer : α} {k : ℚ → InPlace σ α}
    {next : ℚ → Except Error (DesirabilitySet σ)}
    (each : ∀ v, (k v).exec D = commit answer D (next v)) (value : Except Error ℚ) :
    InPlace.exec (do k (← value)) D = commit answer D (value >>= next) := by
  rw [exec_bind]
  cases value with
  | error e => rfl
  | ok v => exact each v

/-- A change is made as a whole or not at all. -/
theorem exists_step_eq (change : Change σ) (D : DesirabilitySet σ) :
    ∃ answer, change.step D = commit answer D (change.whole D) := by
  cases change with
  | new | vacuous | ofCones | extend | addCone | discard | discardCone => exact ⟨_, rfl⟩
  | add f =>
    rw [step, make, exec_bind, whole, DesirabilitySet.insertGamble]
    cases Ray.ofGamble f with
    | error e => exact ⟨none, rfl⟩
    | ok r => exact ⟨_, rfl⟩
  | setLowerPrevision f v =>
    exact ⟨none, exec_value (fun v => exec_assessLower_return f v none D) v.toRational⟩
  | setUpperPrevision f v =>
    exact ⟨none, exec_value (fun v => exec_assessLower_return (-f) (-v) none D) v.toRational⟩
  | setPrevision f v => exact ⟨none, exec_value (fun v => exec_assessBoth f v none D) v.toRational⟩

/-! ## What the changes leave -/

open DesirabilitySet (viewOf assessed)

/-- The sets of directions that a change removes. -/
def removes : Change σ → Set (Set (Set (σ → ℚ)))
  | new | vacuous _ | ofCones _ => Set.univ
  | discard f => {{direction f.payoff}}
  | discardCone C => {C.directions}
  | _ => ∅

/-- The sets of directions that a change adds. -/
def adds : Change σ → Set (Set (Set (σ → ℚ)))
  | new | discard _ | discardCone _ => ∅
  | vacuous event => {c | ∃ x ∈ event, {direction (Gamble.indicator (.singleton x)).payoff} = c}
  | ofCones Cs | extend Cs => viewOf Cs
  | add f => {c | f.payoff ≠ 0 ∧ {direction f.payoff} = c}
  | addCone C => viewOf [C]
  | setLowerPrevision f v => {c | ∃ q, v.toRational = .ok q ∧ f.domain.isEmpty = false ∧ assessed f q = c}
  | setUpperPrevision f v =>
      {c | ∃ q, v.toRational = .ok q ∧ f.domain.isEmpty = false ∧ assessed (-f) (-q) = c}
  | setPrevision f v =>
    {c | ∃ q, v.toRational = .ok q ∧ f.domain.isEmpty = false ∧ (assessed f q = c ∨ assessed (-f) (-q) = c)}

section

variable {α : Type} {answer : α}

theorem view_insertGamble (f : Gamble σ) (D : DesirabilitySet σ) :
    (commit answer D (D.insertGamble f)).2.view = D.view ∪ {c | f.payoff ≠ 0 ∧ {direction f.payoff} = c} := by
  by_cases zero : f.payoff = 0
  · rw [DesirabilitySet.insertGamble, Ray.ofGamble_eq_error zero]
    simp only [zero, ne_eq, not_true_eq_false, false_and, Set.ofPred_false, Set.union_empty]
    rfl
  · obtain ⟨r, direct, -⟩ := Ray.exists_parallel zero
    have inserted : commit answer D (D.insertGamble f) = (.ok answer, D.insert (.singleton r)) := by
      rw [DesirabilitySet.insertGamble, direct]
      rfl
    rw [inserted, D.view_insert rfl, DesirabilitySet.directions_of_ofGamble direct]
    simp only [ne_eq, zero, not_false_eq_true, true_and, Set.ofPred_eq_eq_singleton']

theorem view_setLowerPrevision (f : Gamble σ) (v : ℚ) (D : DesirabilitySet σ) :
    (commit answer D (D.setLowerPrevision f v)).2.view = D.view ∪
      {c | f.domain.isEmpty = false ∧ assessed f v = c} := by
  cases event : f.domain.isEmpty with
  | true =>
    rw [setLowerPrevision_eq_error event]
    simp only [Bool.true_eq_false, false_and, Set.ofPred_false, Set.union_empty]
    rfl
  | false =>
    obtain ⟨C, assesses, done⟩ := DesirabilitySet.exists_setLowerPrevision event D v
    rw [done, show commit answer D (.ok (D.insert C)) = (.ok answer, D.insert C) from rfl,
      D.view_insert assesses.isEmpty_eq, assesses.directions_eq]
    simp only [true_and, Set.ofPred_eq_eq_singleton']

theorem view_setPrevision (f : Gamble σ) (v : ℚ) (D : DesirabilitySet σ) :
    (commit answer D (D.setPrevision f v)).2.view =
      D.view ∪ {c | f.domain.isEmpty = false ∧ (assessed f v = c ∨ assessed (-f) (-v) = c)} := by
  cases event : f.domain.isEmpty with
  | true =>
    rw [DesirabilitySet.setPrevision, setLowerPrevision_eq_error event]
    simp only [Bool.true_eq_false, false_and, Set.ofPred_false, Set.union_empty]
    rfl
  | false =>
    obtain ⟨C, C', lower, upper, done, done'⟩ := exists_setPrevision event D v
    have both : D.setPrevision f v = .ok ((D.insert C).insert C') := by
      rw [DesirabilitySet.setPrevision, done]
      exact done'
    rw [both, show commit answer D (.ok _) = (.ok answer, (D.insert C).insert C') from rfl,
      DesirabilitySet.view_insert _ upper.isEmpty_eq, D.view_insert lower.isEmpty_eq, lower.directions_eq,
      upper.directions_eq, Set.union_assoc]
    refine congrArg (D.view ∪ ·) (Set.ext fun c => ?_)
    simp only [true_and, Set.mem_union, Set.mem_singleton_iff, Set.mem_ofPred_eq, eq_comm (a := c)]

theorem view_value {next : ℚ → Except Error (DesirabilitySet σ)} {added : ℚ → Set (Set (Set (σ → ℚ)))}
    (each : ∀ v, (commit answer D (next v)).2.view = D.view ∪ added v) (value : Except Error ℚ) :
    (commit answer D (value >>= next)).2.view = D.view ∪ {c | ∃ v, value = .ok v ∧ c ∈ added v} := by
  cases value with
  | error e =>
    simp only [reduceCtorEq, false_and, exists_false, Set.ofPred_false, Set.union_empty]
    rfl
  | ok v =>
    simp only [Except.ok.injEq, exists_eq_left', Set.ofPred_mem_eq]
    exact each v

end

theorem view_step (change : Change σ) (D : DesirabilitySet σ) :
    (change.step D).2.view = D.view \ change.removes ∪ change.adds := by
  obtain ⟨answer, made⟩ := change.exists_step_eq D
  rw [made]
  cases change with
  | new => exact DesirabilitySet.view_empty.trans (by simp [removes, adds])
  | vacuous event => exact (DesirabilitySet.view_vacuous event).trans (by simp [removes, adds])
  | ofCones Cs => exact (DesirabilitySet.view_ofCones Cs).trans (by simp [removes, adds])
  | extend Cs => exact (D.view_insertAll Cs).trans (by simp [removes, adds])
  | add f => exact (view_insertGamble f D).trans (by simp [removes, adds])
  | addCone C => exact (D.view_insertAll [C]).trans (by simp [removes, adds])
  | discard f => exact (D.view_eraseGamble f).trans (by simp [removes, adds])
  | discardCone C => exact (D.view_erase C).trans (by simp [removes, adds])
  | setLowerPrevision f v =>
    exact (view_value (fun v => view_setLowerPrevision f v D) _).trans (by simp [removes, adds])
  | setUpperPrevision f v =>
    exact (view_value (fun v => view_setLowerPrevision (-f) (-v) D) _).trans
      (by simp [removes, adds, Gamble.domain_neg])
  | setPrevision f v =>
    exact (view_value (fun v => view_setPrevision f v D) _).trans (by simp [removes, adds])

/-! ## Runs -/

/-- The set after some changes, one after another, of which any may fail. -/
def run (changes : List (Change σ)) : DesirabilitySet σ :=
  changes.foldl (fun D change => (change.step D).2) .empty

/-- After a run the cones stand for the sets of directions that the changes have added and not removed. -/
theorem view_run (changes : List (Change σ)) :
    (run changes).view = changes.foldl (fun V change => V \ change.removes ∪ change.adds) ∅ := by
  rw [run, ← DesirabilitySet.view_empty]
  exact (List.foldl_hom DesirabilitySet.view fun D change => (change.view_step D).symm).symm

theorem step_eq_of_error (failed : change.step D = (.error e, D')) : D' = D := by
  obtain ⟨answer, made⟩ := change.exists_step_eq D
  rw [made] at failed
  cases result : change.whole D with
  | error e' =>
    rw [result] at failed
    cases failed
    rfl
  | ok D'' =>
    rw [result] at failed
    cases failed

theorem step_add {r : Ray σ} (direct : Ray.ofGamble f = .ok r) (D : DesirabilitySet σ) :
    ∃ answer, (add f).step D = (.ok answer, D.insert (.singleton r)) := by
  rw [step, make, exec_bind, direct]
  exact ⟨_, rfl⟩

theorem step_discard {r : Ray σ} (direct : Ray.ofGamble f = .ok r) (mem : .singleton r ∈ D.cones) :
    (discard f).step D = (.ok (some true), D.erase (.singleton r)) := by
  have found : D.contains (.singleton r) = true := SortedSet.contains_iff.2 mem
  show (Except.ok (some (D.gambleCone? f).isSome), D.eraseGamble f) = _
  rw [DesirabilitySet.eraseGamble, DesirabilitySet.gambleCone?, direct]
  simp only [if_pos found, Option.isSome_some]

/-- What a change does not remove stays. -/
theorem mem_cones_step {C : Cone σ} (mem : C ∈ D.cones) (kept : C.directions ∉ change.removes) :
    C ∈ (change.step D).2.cones := by
  rw [← DesirabilitySet.directions_mem_view, view_step]
  exact .inl ⟨DesirabilitySet.directions_mem_view.2 mem, kept⟩

/-- Over every run a set behaves as a set of finite sets of directions. No stored cone is without
rays, each ray has norm one and no zero entry, and no two cones have the same directions. A change
that fails leaves the set as it was. After a gamble has been added, discarding one removes the
cone of the first exactly if it is a positive multiple. -/
theorem run_behaves (changes : List (Change σ)) : let D := run changes
    D.view = changes.foldl (fun V change => V \ change.removes ∪ change.adds) ∅ ∧
    (∀ C ∈ D.cones, (∃ r, r ∈ C.rays) ∧ ∀ r ∈ C.rays,
      r.gamble.norm = 1 ∧ IsGreatest (Set.range fun x => |r.payoff x|) 1 ∧
      ∀ e ∈ r.gamble.table.toList, e.2 ≠ 0) ∧
    D.cones.toList.Pairwise (fun C C' => C.directions ≠ C'.directions) ∧
    (∀ (change : Change σ) e D', change.step D = (.error e, D') → D' = D) ∧
    ∀ f g : Gamble σ, (∃ x, f.payoff x ≠ 0) → (∃ x, g.payoff x ≠ 0) → ∃ C answer D',
      (add f).step D = (.ok answer, D') ∧ C.directions = {direction f.payoff} ∧
      (∀ A, A ∈ D'.cones ↔ A ∈ D.cones ∨ A = C) ∧
      ((∃ c : ℚ, 0 < c ∧ ∀ x, g.payoff x = c * f.payoff x) →
        ∃ D'', (discard g).step D' = (.ok (some true), D'') ∧ ∀ A, A ∈ D''.cones ↔
          A ∈ D'.cones ∧ A ≠ C) ∧
      ((¬∃ c : ℚ, 0 < c ∧ ∀ x, g.payoff x = c * f.payoff x) → C ∈ ((discard g).step D').2.cones) := by
  intro D
  have parallel_iff (f g : Gamble σ) :
      Parallel g.payoff f.payoff ↔ ∃ c : ℚ, 0 < c ∧ ∀ x, g.payoff x = c * f.payoff x :=
    exists_congr fun c => and_congr_right fun _ => funext_iff
  refine ⟨view_run changes, fun C hC => ⟨?_, fun r _ => ?_⟩, ?_, fun change e D' => step_eq_of_error,
    fun f g ⟨x, charged⟩ _ => ?_⟩
  · exact SortedSet.isEmpty_eq_false_iff.1 (D.nonempty C hC)
  · exact ⟨r.norm_eq_one, r.isGreatest_abs_payoff, fun e he => r.ne_zero e.2 (List.mem_map_of_mem he)⟩
  · exact D.cones.nodup.imp fun ne same => ne (Cone.directions_injective same)
  · obtain ⟨r, direct, -⟩ := Ray.exists_parallel fun zero => charged (congrFun zero x)
    obtain ⟨answer, added⟩ := step_add direct D
    have directions := DesirabilitySet.directions_of_ofGamble direct
    have cones (A : Cone σ) : A ∈ (D.insert (.singleton r)).cones ↔ A ∈ D.cones ∨ A = .singleton r :=
      DesirabilitySet.mem_cones_insert.trans (or_congr_right (and_iff_left rfl))
    have mem := (cones (.singleton r)).2 (.inr rfl)
    refine ⟨.singleton r, answer, _, added, directions, cones, fun multiple => ?_, fun other => ?_⟩
    · have direct' : Ray.ofGamble g = .ok r :=
        (Ray.ofGamble_congr ((parallel_iff f g).2 multiple)).trans direct
      exact ⟨_, step_discard direct' mem, fun A => SortedSet.mem_erase⟩
    · refine mem_cones_step mem fun removed => other ((parallel_iff f g).1 ?_)
      rw [directions] at removed
      exact (direction_eq_iff.1 (Set.singleton_injective removed)).symm

/-- A run with an assessment that fails, one that succeeds, and a gamble that is discarded though
it was not added. -/
def trial : List (Change Int) :=
  [.vacuous (.ofList [0, 1]), .setPrevision .empty (.integer 1),
    .setPrevision (.ofList [(0, 3), (1, -1), (2, 0)]) (.decimal 5 1),
    .discard (.ofList [(0, -3), (1, 1)])]

/-- The gamble that is added after the run is discarded through its double, and not through its opposite. -/
theorem run_behaves_wager :
    let f : Gamble Int := .ofList [(0, 3), (1, -1), (2, 0)]
    let g : Gamble Int := .ofList [(0, 6), (1, -2)]
    let h : Gamble Int := .ofList [(0, -3), (1, 1)]
    (run trial).cones.size = 4 ∧
      (setPrevision .empty (.integer 1)).step (run trial) = (.error .degenerateRay, run trial) ∧
      (∃ C answer D' D'', (add f).step (run trial) = (.ok answer, D') ∧
        (discard g).step D' = (.ok (some true), D'') ∧
        ∀ A, A ∈ D''.cones ↔ A ∈ D'.cones ∧ A ≠ C) ∧
      ∃ C answer D', (add f).step (run trial) = (.ok answer, D') ∧ C.directions = {direction f.payoff} ∧
        C ∈ ((discard h).step D').2.cones := by
  intro f g h
  let r : Ray Int := ⟨.ofList [(0, 1), (1, -1 / 3)], by decide +kernel, by decide +kernel⟩
  have size : (run trial).cones.size = 4 := by decide +kernel
  have charged : f.payoff 0 = 3 ∧ g.payoff 0 = 6 ∧ h.payoff 0 = -3 := by decide +kernel
  have double : ∃ c : ℚ, 0 < c ∧ ∀ x, g.payoff x = c * f.payoff x := by
    have direct : Ray.ofGamble f = .ok r ∧ Ray.ofGamble g = .ok r := by decide +kernel
    obtain ⟨c, pos, multiple⟩ :=
      (Ray.ofGamble_eq_ok_iff.1 direct.2).trans (Ray.ofGamble_eq_ok_iff.1 direct.1).symm
    exact ⟨c, pos, congrFun multiple⟩
  have opposite : ¬∃ c : ℚ, 0 < c ∧ ∀ x, h.payoff x = c * f.payoff x := by
    rintro ⟨c, pos, multiple⟩
    have at_zero := multiple 0
    rw [charged.1, charged.2.2] at at_zero
    linarith
  obtain ⟨-, -, -, unchanged, discards⟩ := run_behaves trial
  have failed : (setPrevision .empty (.integer 1)).step (run trial) = (.error .degenerateRay, run trial) := by
    have answer :
        ((setPrevision .empty (.integer 1)).step (run trial)).1 = .error .degenerateRay := by decide +kernel
    exact Prod.ext answer (unchanged _ _ _ (Prod.ext answer rfl))
  obtain ⟨C, answer, D', added, -, -, removed, -⟩ :=
    discards f g ⟨0, by rw [charged.1]; decide⟩ ⟨0, by rw [charged.2.1]; decide⟩
  obtain ⟨C', answer', E', added', directions, -, -, kept⟩ :=
    discards f h ⟨0, by rw [charged.1]; decide⟩ ⟨0, by rw [charged.2.2]; decide⟩
  obtain ⟨D'', discarded, rest⟩ := removed double
  exact ⟨size, failed, ⟨C, answer, D', D'', added, discarded, rest⟩, C', answer', E', added',
    directions, kept opposite⟩

end Change

end Prevision
