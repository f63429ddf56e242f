import Prevision.Proofs.Inference.ConeStrip
import Prevision.Proofs.Inference.PartialLoss

/-!
# The programs that are asked for

A solver may keep a record of the programs that it is asked to solve
(`Solver.recorded`). The record of a run shows how often the solver was asked,
whatever its answers are: each round but the last strips a cone, or leaves out a
state or a cone (`ConeStrip.Run.recorded`, `PartialLoss.Run.recorded`).

A round reads the weights and activations of its slots, the losses of its states
and the multiple of its target, and nothing else (`ConeStrip.round_congr`,
`PartialLoss.round_congr`). All of them are variables of its program, so an
accepted answer has a value for each (`ConeStrip.reads_lt`, `PartialLoss.reads_lt`).
-/

namespace Prevision

open Slot (rayCount)

variable {σ : Type} [State σ]

/-- Answers by a function, and records the programs that it was asked for, the last one first. -/
def Solver.recorded (answer : LinearProgram → Solution) : Solver (StateM (List LinearProgram)) := fun p => do
  modify (p :: ·)
  return answer p

/-- An accepted optimum has a value for every variable. -/
theorem Solution.length_of_optimumOf {s t : Solution} {p : LinearProgram} (accepted : s.optimumOf p = .ok t) :
    t.primal.length = p.variableCount := by
  by_cases optimal : s.status = .optimal
  · rw [optimumOf, optimum, optimal] at accepted
    change (if s.primal.length = p.variableCount then Except.ok s else _) = _ at accepted
    split at accepted
    · cases accepted
      assumption
    · cases accepted
  · cases (optimumOf_of_status rfl optimal p).symm.trans accepted

/-! ## What a round reads of a point -/

namespace Slot

variable {p q : Row} {s : Slot σ} {slots : List (Slot σ)}

/-- The variables of a slot. -/
def reads (s : Slot σ) : List ℕ := s.activation :: s.weights

theorem isActive_congr (same : ∀ i ∈ s.reads, Row.entry q i = Row.entry p i) :
    s.isActive q = s.isActive p := by
  rw [isActive, isActive, same _ List.mem_cons_self]

theorem isStray_congr (same : ∀ i ∈ s.reads, Row.entry q i = Row.entry p i) : s.isStray q = s.isStray p := by
  have used : s.isUsed q = s.isUsed p := by
    rw [isUsed, isUsed, Bool.eq_iff_iff, List.any_eq_true, List.any_eq_true]
    refine exists_congr fun v => and_congr_right fun hv => ?_
    rw [same v (List.mem_cons_of_mem _ hv)]
  rw [isStray, isStray, isActive_congr same, used]

theorem filter_isActive_congr (same : ∀ i ∈ slots.flatMap reads, Row.entry q i = Row.entry p i) :
    slots.filter (isActive q) = slots.filter (isActive p) :=
  List.filter_congr fun _ hs => isActive_congr fun i hi => same i (List.mem_flatMap.2 ⟨_, hs, hi⟩)

theorem any_isStray_congr (same : ∀ i ∈ slots.flatMap reads, Row.entry q i = Row.entry p i) :
    slots.any (isStray q) = slots.any (isStray p) := by
  rw [Bool.eq_iff_iff, List.any_eq_true, List.any_eq_true]
  refine exists_congr fun s => and_congr_right fun hs => ?_
  rw [isStray_congr fun i hi => same i (List.mem_flatMap.2 ⟨s, hs, hi⟩)]

theorem map_cone_ofCones (A : List (Cone σ)) (w a : ℕ) : (ofCones A w a).map cone = A := by
  induction A generalizing w a with
  | nil => rfl
  | cons C rest ih => rw [ofCones, List.map_cons, ih]

theorem activeCones_sublist (p : Row) (A : List (Cone σ)) (w a : ℕ) :
    (activeCones p (ofCones A w a)).Sublist A := by
  have sub : (activeCones p (ofCones A w a)).Sublist ((ofCones A w a).map cone) :=
    List.filter_sublist.map cone
  rwa [map_cone_ofCones] at sub

end Slot

/-! ## Stripping cones -/

namespace ConeStrip

variable {active : List (Cone σ)} {states : SortedSet σ} {target : Option (Gamble σ)} {p q : Row}
    {s t : Solution}

/-- The variables that a round reads: those of the slots, and the multiple of the target. -/
def reads (active : List (Cone σ)) (target : Option (Gamble σ)) : List ℕ :=
  (slots active).flatMap Slot.reads ++ target.toList.map fun _ => scaleVariable active

/-- Two points are the same to a round. -/
structure SameRound (active : List (Cone σ)) (target : Option (Gamble σ)) (q p : Row) : Prop where
  stray : (slots active).any (Slot.isStray q) = (slots active).any (Slot.isStray p)
  next : Slot.activeCones q (slots active) = Slot.activeCones p (slots active)
  witness : witness active target q = witness active target p

/-- A round depends on what it reads alone. -/
theorem round_congr (same : ∀ i ∈ reads active target, Row.entry q i = Row.entry p i) :
    SameRound active target q p := by
  have onSlots : ∀ i ∈ (slots active).flatMap Slot.reads, Row.entry q i = Row.entry p i :=
    fun i hi => same i (List.mem_append_left _ hi)
  have kept := Slot.filter_isActive_congr onSlots
  have scale : (if target.isSome then Row.entry q (scaleVariable active) else 1) =
      if target.isSome then Row.entry p (scaleVariable active) else 1 := by
    cases target with
    | none => rfl
    | some f => exact same _ (List.mem_append_right _ List.mem_cons_self)
  refine ⟨Slot.any_isStray_congr onSlots, congrArg (List.map Slot.cone) kept, ?_⟩
  rw [witness, witness, kept, scale]
  congr 1
  refine List.map_congr_left fun s hs => ?_
  have weights : s.weights.map (Row.entry q) = s.weights.map (Row.entry p) := List.map_congr_left fun v hv =>
    onSlots v (List.mem_flatMap.2 ⟨s, (List.mem_filter.1 hs).1, List.mem_cons_of_mem _ hv⟩)
  rw [weights]

theorem reads_lt (accepted : s.optimumOf (program active states target) = .ok t) :
    ∀ i ∈ reads active target, i < t.primal.length := by
  rw [Solution.length_of_optimumOf accepted, (program_maximizes active states target).variableCount]
  intro i hi
  rcases List.mem_append.1 hi with slot | scale
  · obtain ⟨u, hu, hi⟩ := List.mem_flatMap.1 slot
    obtain ⟨weights, -, activation⟩ := slot_variables hu
    rcases List.mem_cons.1 hi with rfl | weight
    · exact Nat.lt_add_right _ activation
    · exact Nat.lt_add_right _ (Nat.lt_add_right _ (weights i weight))
  · cases target with
    | none => exact absurd scale List.not_mem_nil
    | some f =>
      cases List.mem_singleton.1 scale
      exact Nat.lt_succ_self _

theorem strip_recorded_run (answer : LinearProgram → Solution) (states : SortedSet σ)
    (target : Option (Gamble σ)) (active : List (Cone σ)) (asked : List LinearProgram) :
    (strip (Solver.recorded answer) states target active).run.run asked =
      if active.isEmpty then (.ok none, asked)
      else match (answer (program active states target)).optimumOf (program active states target) with
        | .error (.unsolved .inconsistent) => (.ok none, program active states target :: asked)
        | .error e => (.error e, program active states target :: asked)
        | .ok s =>
          if (slots active).any (Slot.isStray s.primal) = true then
            (strip (Solver.recorded answer) states target (Slot.activeCones s.primal (slots active))).run.run
              (program active states target :: asked)
          else (.ok (some (witness active target s.primal)), program active states target :: asked) := by
  rw [strip]
  split
  · rfl
  · show (match (answer (program active states target)).optimumOf (program active states target) with
      | .error (.unsolved .inconsistent) => _
      | .error e => _
      | .ok s => _ : StateM (List LinearProgram) (Except Error (Option (Witness σ)))).run _ = _
    cases (answer (program active states target)).optimumOf (program active states target) with
    | error e =>
      cases e with
      | unsolved status => cases status <;> rfl
      | _ => rfl
    | ok s =>
      dsimp only
      split <;> rfl

/-- A run with a record: the same result, with at most one program for each active cone, each
posed for some of these. -/
theorem Run.recorded {answer : LinearProgram → Solution} {r : Except Error (Option (Witness σ))}
    (run : Run answer states target active r) (asked : List LinearProgram) : ∃ posed,
      (strip (Solver.recorded answer) states target active).run.run asked = (r, posed ++ asked) ∧
      posed.length ≤ active.length ∧ ∀ p ∈ posed, ∃ rest, rest.Sublist active ∧
      p = program rest states target := by
  have last {active : List (Cone σ)} (some_cone : active ≠ []) :
      [program active states target].length ≤ active.length ∧
        ∀ p ∈ [program active states target], ∃ rest, rest.Sublist active ∧ p = program rest states target :=
    ⟨List.length_pos_iff.2 some_cone, fun p hp => ⟨active, .refl _, List.mem_singleton.1 hp⟩⟩
  induction run generalizing asked with
  | empty =>
    exact ⟨[], (strip_recorded_run answer states target [] asked).trans (if_pos rfl), le_rfl,
      fun p hp => absurd hp List.not_mem_nil⟩
  | @inconsistent active some_cone solved =>
    refine ⟨[program active states target], ?_, last some_cone⟩
    rw [strip_recorded_run, if_neg (List.isEmpty_iff.not.2 some_cone), solved]
    rfl
  | @failed active e some_cone other solved =>
    refine ⟨[program active states target], ?_, last some_cone⟩
    rw [strip_recorded_run, if_neg (List.isEmpty_iff.not.2 some_cone), solved]
    split
    · rename_i inconsistent
      exact absurd (Except.error.inj inconsistent) other
    · rename_i same
      rw [Except.error.inj same]
      rfl
    · rename_i accepted
      cases accepted
  | @done active s some_cone solved stray =>
    refine ⟨[program active states target], ?_, last some_cone⟩
    rw [strip_recorded_run, if_neg (List.isEmpty_iff.not.2 some_cone), solved]
    exact if_neg (Bool.eq_false_iff.1 stray)
  | @next active s r some_cone solved stray _ ih =>
    have fewer := Slot.length_activeCones_lt stray
    have sub := Slot.activeCones_sublist s.primal active 0 (rayCount active)
    rw [slots, Slot.length_ofCones] at fewer
    obtain ⟨posed, run, short, each⟩ := ih (program active states target :: asked)
    refine ⟨posed ++ [program active states target], ?_, ?_,
      List.forall_mem_append.2 ⟨fun p hp => ?_, (last some_cone).2⟩⟩
    · rw [strip_recorded_run, if_neg (List.isEmpty_iff.not.2 some_cone), solved, List.append_assoc]
      exact (if_pos stray).trans run
    · rw [List.length_append, List.length_singleton]
      exact Nat.succ_le_of_lt (short.trans_lt fewer)
    · obtain ⟨rest, within, same⟩ := each p hp
      exact ⟨rest, within.trans sub, same⟩

end ConeStrip

/-! ## Avoiding partial loss -/

namespace PartialLoss

variable {space : SortedSet σ} {states : List σ} {active : List (Cone σ)} {p q : Row} {s t : Solution}

/-- The variables that a round reads: those of the slots, and the losses of the states. -/
def reads (states : List σ) (active : List (Cone σ)) : List ℕ :=
  (slots states active).flatMap Slot.reads ++ (List.range states.length).map (lossVariable active)

/-- Two points are the same to a round. -/
structure SameRound (states : List σ) (active : List (Cone σ)) (q p : Row) : Prop where
  losing : losingStates states active q = losingStates states active p
  stray : hasStray states active q = hasStray states active p
  next : activeCones states active q = activeCones states active p

/-- A round depends on what it reads alone. -/
theorem round_congr (same : ∀ i ∈ reads states active, Row.entry q i = Row.entry p i) :
    SameRound states active q p := by
  have onSlots : ∀ i ∈ (slots states active).flatMap Slot.reads, Row.entry q i = Row.entry p i :=
    fun i hi => same i (List.mem_append_left _ hi)
  refine ⟨congrArg (List.map Prod.fst) (List.filter_congr fun x hx => ?_), Slot.any_isStray_congr onSlots,
    congrArg (List.map Slot.cone) (Slot.filter_isActive_congr onSlots)⟩
  have position : x.2 ∈ List.range states.length := List.mem_range.2 (List.snd_lt_of_mem_zipIdx hx)
  rw [same _ (List.mem_append_right _ (List.mem_map_of_mem position))]

theorem reads_lt (some_cone : active ≠ []) (accepted : s.optimumOf (program space states active) = .ok t) :
    ∀ i ∈ reads states active, i < t.primal.length := by
  rw [Solution.length_of_optimumOf accepted, (program_maximizes space (.inr some_cone)).variableCount]
  intro i hi
  rcases List.mem_append.1 hi with slot | loss
  · obtain ⟨u, hu, hi⟩ := List.mem_flatMap.1 slot
    obtain ⟨weights, -, activation⟩ := slot_variables hu
    rcases List.mem_cons.1 hi with rfl | weight
    · exact activation
    · exact Nat.lt_add_right _ (Nat.lt_add_right _ (weights i weight))
  · obtain ⟨j, hj, rfl⟩ := List.mem_map.1 loss
    exact lossVariable_lt (Nat.lt_add_right _ (List.mem_range.1 hj))

theorem avoids_recorded_run (answer : LinearProgram → Solution) (space : SortedSet σ) (states : List σ)
    (active : List (Cone σ)) (asked : List LinearProgram) :
    (avoids (Solver.recorded answer) space states active).run.run asked =
      if states.isEmpty || active.isEmpty then (.ok true, asked)
      else match (answer (program space states active)).optimumOf (program space states active) with
        | .error e => (.error e, program space states active :: asked)
        | .ok s =>
          if (losingStates states active s.primal).isEmpty
            then (.ok true, program space states active :: asked)
          else if (losingStates states active s.primal).length = states.length ∧
              hasStray states active s.primal = false then (.ok false, program space states active :: asked)
          else (avoids (Solver.recorded answer) space (losingStates states active s.primal)
            (activeCones states active s.primal)).run.run (program space states active :: asked) := by
  rw [avoids]
  split
  · rfl
  · show (ExceptT.bindCont _
        ((answer (program space states active)).optimumOf (program space states active)) :
      StateM (List LinearProgram) (Except Error Bool)).run _ = _
    cases (answer (program space states active)).optimumOf (program space states active) with
    | error e => rfl
    | ok s =>
      dsimp only [ExceptT.bindCont]
      split
      · rfl
      · split <;> rfl

/-- A run with a record: the same result, with at most one program for each active state and cone,
each posed for some of these. -/
theorem Run.recorded {answer : LinearProgram → Solution} {r : Except Error Bool}
    (run : Run answer space states active r) (asked : List LinearProgram) : ∃ posed,
      (avoids (Solver.recorded answer) space states active).run.run asked = (r, posed ++ asked) ∧
      posed.length ≤ states.length + active.length ∧
      ∀ p ∈ posed, ∃ left rest, left.Sublist states ∧ rest.Sublist active ∧ rest ≠ [] ∧
        p = program space left rest := by
  have last {states : List σ} {active : List (Cone σ)}
      (some_left : (states.isEmpty || active.isEmpty) = false) :
      [program space states active].length ≤ states.length + active.length ∧
        ∀ p ∈ [program space states active], ∃ left rest, left.Sublist states ∧ rest.Sublist active ∧
          rest ≠ [] ∧
          p = program space left rest := by
    have some_cone := some_cone_of_left some_left
    exact ⟨Nat.le_add_left_of_le (List.length_pos_iff.2 some_cone),
      fun p hp => ⟨states, active, .refl _, .refl _, some_cone, List.mem_singleton.1 hp⟩⟩
  induction run generalizing asked with
  | @empty states active empty =>
    exact ⟨[], (avoids_recorded_run answer space states active asked).trans (if_pos empty), Nat.zero_le _,
      fun p hp => absurd hp List.not_mem_nil⟩
  | @failed states active e some_left solved =>
    refine ⟨[program space states active], ?_, last some_left⟩
    rw [avoids_recorded_run, if_neg (Bool.eq_false_iff.1 some_left), solved]
    rfl
  | @none states active s some_left solved none =>
    refine ⟨[program space states active], ?_, last some_left⟩
    rw [avoids_recorded_run, if_neg (Bool.eq_false_iff.1 some_left), solved]
    exact if_pos none
  | @all states active s some_left solved some_state all =>
    refine ⟨[program space states active], ?_, last some_left⟩
    rw [avoids_recorded_run, if_neg (Bool.eq_false_iff.1 some_left), solved]
    exact (if_neg (Bool.eq_false_iff.1 some_state)).trans (if_pos all)
  | @next states active s r some_left solved some_state done _ ih =>
    have fewer := next_lt done
    have sub := Slot.activeCones_sublist s.primal active 0 (rayCount active + states.length)
    have subStates := losingStates_sublist states active s.primal
    obtain ⟨posed, run, short, each⟩ := ih (program space states active :: asked)
    refine ⟨posed ++ [program space states active], ?_, ?_,
      List.forall_mem_append.2 ⟨fun p hp => ?_, (last some_left).2⟩⟩
    · rw [avoids_recorded_run, if_neg (Bool.eq_false_iff.1 some_left), solved, List.append_assoc]
      exact (if_neg (Bool.eq_false_iff.1 some_state)).trans ((if_neg done).trans run)
    · rw [List.length_append, List.length_singleton]
      exact Nat.succ_le_of_lt (short.trans_lt fewer)
    · obtain ⟨left, rest, within, within', some_rest, same⟩ := each p hp
      exact ⟨left, rest, within.trans subStates, within'.trans sub, some_rest, same⟩

end PartialLoss

/-! ## Whole runs -/

/-- Whatever the answers are, the search for a positive combination asks for at most one program
for each cone with rays, and the check for partial loss for at most one for each state and each
cone. In every round the variables that are read have a value in an answer that is accepted, and
nothing else of it matters. -/
theorem recorded_rounds (answer : LinearProgram → Solution) (cones : List (Cone σ))
    (target : Option (Gamble σ)) (D : DesirabilitySet σ) :
    (∃ posed, (ConeStrip.feasible (Solver.recorded answer) cones target).run.run [] =
        ((ConeStrip.feasible (m := Id) answer cones target).run, posed) ∧
      posed.length ≤ (cones.filter fun C => !C.isEmpty).length ∧
      ∀ p ∈ posed, ∃ active states, active.Sublist cones ∧ p = ConeStrip.program active states target ∧
        ∀ s, (answer p).optimumOf p = .ok s → (∀ i ∈ ConeStrip.reads active target, i < s.primal.length) ∧
          ∀ q, (∀ i ∈ ConeStrip.reads active target, Row.entry q i = Row.entry s.primal i) →
            ConeStrip.SameRound active target q s.primal) ∧
    ∃ posed, (D.avoidsPartialLoss (Solver.recorded answer)).run.run [] =
        ((D.avoidsPartialLoss (m := Id) answer).run, posed) ∧
      posed.length ≤ D.domain.size + D.cones.size ∧
      ∀ p ∈ posed, ∃ states active, states.Sublist D.domain.toList ∧ active.Sublist D.cones.toList ∧
        p = PartialLoss.program D.domain states active ∧
        ∀ s, (answer p).optimumOf p = .ok s → (∀ i ∈ PartialLoss.reads states active, i < s.primal.length) ∧
          ∀ q, (∀ i ∈ PartialLoss.reads states active, Row.entry q i = Row.entry s.primal i) →
            PartialLoss.SameRound states active q s.primal := by
  constructor
  · obtain ⟨posed, run, short, each⟩ := (ConeStrip.run_strip answer
      (SortedSet.flatMap cones Cone.domain ∪ (target.map Gamble.domain).getD ∅) target
      (cones.filter fun C => !C.isEmpty)).recorded []
    rw [List.append_nil] at run
    refine ⟨posed, run, short, fun p hp => ?_⟩
    obtain ⟨active, within, same⟩ := each p hp
    refine ⟨active, _, within.trans List.filter_sublist, same,
      fun s accepted => ⟨?_, fun q => ConeStrip.round_congr⟩⟩
    rw [same] at accepted
    exact ConeStrip.reads_lt accepted
  · obtain ⟨posed, run, short, each⟩ :=
      (PartialLoss.run_avoids answer D.domain D.domain.toList D.cones.toList).recorded []
    rw [List.append_nil] at run
    refine ⟨posed, run, short, fun p hp => ?_⟩
    obtain ⟨states, active, within, within', some_cone, same⟩ := each p hp
    refine ⟨states, active, within, within', same, fun s accepted => ⟨?_, fun q => PartialLoss.round_congr⟩⟩
    rw [same] at accepted
    exact PartialLoss.reads_lt some_cone accepted

end Prevision
