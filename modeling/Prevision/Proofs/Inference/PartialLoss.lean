import Prevision.Inference.PartialLoss
import Prevision.Proofs.Inference.Rounds

/-!
# Partial loss is decided exactly

With enough pivots, `avoidsPartialLoss` is false exactly if some selection of
the assessed cones loses.

Each round maximizes the number of states that count as losing together with
the number of activated cones. At an optimum a state counts, and a cone is
activated, as soon as some combination that could be added is negative in
that state, or has positive weights on all rays of that cone
(`Optimum.loses`, `Optimum.activates`). So all counts are zero or one, and
neither a state nor a cone that a losing selection needs is ever left out.

* `round_feasible_iff`: the points of a round's program;
* `Optimum.survives`: what a losing selection needs stays active;
* `run_avoids`, `Run.eq`: a run as the sequence of its rounds, for inductions over any run;
* `exists_avoids`: the rounds, by induction on the states and cones left;
* `exists_avoidsPartialLoss`: the main result.
-/

namespace Prevision

open AffineForm (sumTerms)
open Slot (totalPayoff rayCount seats survivors Seated Raised)

variable {σ : Type} [State σ] {cones active : List (Cone σ)} {positions : List Nat} {space : SortedSet σ}
  {states : List σ} {p q : Row}

namespace PartialLoss

/-! ## The program of a round -/

/-- The number of variables of a round's program. -/
def variableCount (states : List σ) (active : List (Cone σ)) : Nat :=
  rayCount active + states.length + active.length

/-- The total that a round maximizes. -/
def count (states : List σ) (active : List (Cone σ)) (p : Row) : Rat :=
  ((List.range (states.length + active.length)).map fun i => Row.entry p (lossVariable active i)).sum

/-- A point of a round's program. -/
structure RoundPoint (space : SortedSet σ) (states : List σ) (active : List (Cone σ)) (p : Row) : Prop where
  length : p.length = variableCount states active
  holds : ∀ s ∈ slots states active, s.Holds p
  counts : ∀ i < states.length, 0 ≤ Row.entry p (lossVariable active i) ∧
    Row.entry p (lossVariable active i) ≤ 1
  nonpos : ∀ x ∈ space, totalPayoff p (slots states active) x ≤ 0
  losses : ∀ i x, states[i]? = some x →
    Row.entry p (lossVariable active i) ≤ -totalPayoff p (slots states active) x

theorem slot_variables {s : Slot σ} (hs : s ∈ slots states active) :
    (∀ v ∈ s.weights, v < rayCount active) ∧ rayCount active + states.length ≤ s.activation ∧
      s.activation < variableCount states active := by
  refine ⟨fun v hv => ?_, Slot.activation_mem hs⟩
  have := (Slot.weight_mem hs hv).2
  rwa [Nat.zero_add] at this

/-- Where a state stands among the active ones. -/
theorem findIdx?_eq_some_iff (nodup : states.Nodup) {x : σ} {i : Nat} :
    (states.findIdx? fun y => compare x y == .eq) = some i ↔ states[i]? = some x := by
  rw [List.findIdx?_eq_some_iff_getElem, List.getElem?_eq_some_iff]
  constructor
  · rintro ⟨lt, same, -⟩
    exact ⟨lt, (Ordered.compare_eq_iff.1 (beq_iff_eq.1 same)).symm⟩
  · rintro ⟨lt, rfl⟩
    refine ⟨lt, beq_iff_eq.2 (Ordered.compare_eq_iff.2 rfl), fun j hj => ?_⟩
    rw [beq_iff_eq, Ordered.compare_eq_iff]
    exact fun same => (Nat.ne_of_lt hj) ((nodup.getElem_inj_iff).1 same).symm

/-- The loss of a point in a state: zero in those that are not active. -/
def lossIn (states : List σ) (active : List (Cone σ)) (p : Row) (x : σ) : Rat :=
  ((states.findIdx? fun y => compare x y == .eq).map fun i => Row.entry p (lossVariable active i)).getD 0

theorem value_loss (states : List σ) (active : List (Cone σ)) (p : Row) (x : σ) :
    (loss states active x).value p = -totalPayoff p (slots states active) x - lossIn states active p x := by
  rw [AffineForm.value_eq, loss, AffineForm.sumTerms_append, Slot.sumTerms_flatMap_payoffTerms,
    zero_add, neg_one_mul, sub_eq_add_neg, lossIn]
  cases states.findIdx? fun y => compare x y == .eq with
  | none =>
    rw [Option.map_none, Option.map_none, Option.getD_none, neg_zero]
    rfl
  | some i =>
    rw [Option.map_some, Option.map_some, Option.getD_some, Option.toList_some, AffineForm.sumTerms_cons,
      AffineForm.sumTerms_nil, add_zero, neg_one_mul]

theorem lossIn_of_getElem? (nodup : states.Nodup) {x : σ} {i : Nat} (at_i : states[i]? = some x) :
    lossIn states active p x = Row.entry p (lossVariable active i) := by
  rw [lossIn, (findIdx?_eq_some_iff nodup).2 at_i, Option.map_some, Option.getD_some]

/-- The loss of a point in a state is zero, or that of an active state. -/
theorem lossIn_cases (states : List σ) (active : List (Cone σ)) (x : σ) :
    (∀ p, lossIn states active p x = 0) ∨
      ∃ i < states.length, ∀ p, lossIn states active p x = Row.entry p (lossVariable active i) := by
  cases place : states.findIdx? fun y => compare x y == .eq with
  | none => exact .inl fun p => by rw [lossIn, place]; rfl
  | some i =>
    exact .inr ⟨i, (List.findIdx?_eq_some_iff_getElem.1 place).1, fun p => by rw [lossIn, place]; rfl⟩

theorem lossIn_nonneg (counts : ∀ i < states.length, 0 ≤ Row.entry p (lossVariable active i)) (x : σ) :
    0 ≤ lossIn states active p x := by
  rcases lossIn_cases states active x with zero | ⟨i, hi, same⟩
  · exact (zero p).ge
  · exact (counts i hi).trans_eq (same p).symm

/-- The combination is at most minus the loss in a state if it is at most zero and, if the state is active,
at most minus its count. -/
theorem lossIn_le_iff (nodup : states.Nodup) (x : σ)
    (counts : ∀ i < states.length, 0 ≤ Row.entry p (lossVariable active i)) :
    lossIn states active p x ≤ -totalPayoff p (slots states active) x ↔
      totalPayoff p (slots states active) x ≤ 0 ∧
        ∀ i, states[i]? = some x →
          Row.entry p (lossVariable active i) ≤ -totalPayoff p (slots states active) x := by
  constructor
  · intro h
    refine ⟨neg_nonneg.1 ((lossIn_nonneg counts x).trans h), fun i at_i => ?_⟩
    rwa [← lossIn_of_getElem? nodup at_i]
  · rintro ⟨nonpos, losses⟩
    cases place : states.findIdx? fun y => compare x y == .eq with
    | none =>
      rw [lossIn, place]
      exact neg_nonneg.2 nonpos
    | some i =>
      have at_i := (findIdx?_eq_some_iff nodup).1 place
      rw [lossIn_of_getElem? nodup at_i]
      exact losses i at_i

theorem lossBounds_nonneg_iff {i : Nat} : (∀ F ∈ lossBounds active i, 0 ≤ F.value p) ↔
    0 ≤ Row.entry p (lossVariable active i) ∧ Row.entry p (lossVariable active i) ≤ 1 := by
  simp only [lossBounds, List.forall_mem_cons, List.not_mem_nil, false_imp_iff, implies_true, and_true,
    AffineForm.value_single, zero_add, one_mul]
  refine and_congr_right fun _ => ?_
  constructor <;> intro h <;> linarith

/-- The forms of a round, all to be at least zero. -/
def bounds (space : SortedSet σ) (states : List σ) (active : List (Cone σ)) : List AffineForm :=
  (slots states active).flatMap Slot.constraints ++ (List.range states.length).flatMap (lossBounds active) ++
    space.toList.map (loss states active)

/-- The terms of the total that a round maximizes. -/
def counted (states : List σ) (active : List (Cone σ)) : List (Nat × Rat) :=
  (List.range (states.length + active.length)).map fun i => (lossVariable active i, 1)

theorem sumTerms_counted (states : List σ) (active : List (Cone σ)) (p : Row) :
    sumTerms (counted states active) p = count states active p := by
  rw [counted, sumTerms, List.map_map]
  exact congrArg List.sum (List.map_congr_left fun i _ => one_mul _)

theorem lossVariable_lt {i : Nat} (hi : i < states.length + active.length) :
    lossVariable active i < variableCount states active := by
  rw [lossVariable, variableCount]
  omega

theorem bounds_within (space : SortedSet σ) (states : List σ) (active : List (Cone σ)) :
    ∀ F ∈ bounds space states active, F.isWithin (variableCount states active) = true := by
  have weights {s : Slot σ} (hs : s ∈ slots states active) :
      ∀ v ∈ s.weights, v < variableCount states active :=
    fun v hv => Nat.lt_add_right _ (Nat.lt_add_right _ ((slot_variables hs).1 v hv))
  intro F hF
  rcases List.mem_append.1 hF with early | state
  · rcases List.mem_append.1 early with slot | loss
    · obtain ⟨s, hs, hF⟩ := List.mem_flatMap.1 slot
      exact Slot.constraints_within (weights hs) (slot_variables hs).2.2 F hF
    · obtain ⟨i, hi, hF⟩ := List.mem_flatMap.1 loss
      have lt : lossVariable active i < variableCount states active :=
        lossVariable_lt (Nat.lt_add_right _ (List.mem_range.1 hi))
      simp only [lossBounds, List.mem_cons, List.not_mem_nil, or_false] at hF
      rcases hF with rfl | rfl <;> simpa [AffineForm.isWithin_iff] using lt
  · obtain ⟨x, -, rfl⟩ := List.mem_map.1 state
    refine AffineForm.isWithin_iff.2 fun t ht => ?_
    rcases List.mem_append.1 ht with weight | own
    · obtain ⟨s, hs, ht⟩ := List.mem_flatMap.1 weight
      exact Slot.payoffTerms_within (weights hs) (-1) x t ht
    · obtain ⟨i, place, rfl⟩ := Option.map_eq_some_iff.1 (Option.mem_toList.1 own)
      have lt : i < states.length := (List.findIdx?_eq_some_iff_getElem.1 place).1
      exact lossVariable_lt (Nat.lt_add_right _ lt)

theorem bounds_ne_nil (space : SortedSet σ) (some_left : states ≠ [] ∨ active ≠ []) :
    bounds space states active ≠ [] := by
  rcases some_left with some_state | some_cone
  · obtain ⟨x, rest, rfl⟩ := List.exists_cons_of_ne_nil some_state
    simp [bounds, lossBounds, List.range_succ_eq_map]
  · obtain ⟨C, rest, rfl⟩ := List.exists_cons_of_ne_nil some_cone
    simp [bounds, slots, Slot.ofCones, Slot.constraints]

theorem program_maximizes (space : SortedSet σ) {states : List σ} {active : List (Cone σ)}
    (some_left : states ≠ [] ∨ active ≠ []) :
    (program space states active).Maximizes (variableCount states active) [] (bounds space states active)
      (counted states active) := by
  refine ⟨rfl, bounds_ne_nil space some_left, rfl, rfl, bounds_within space states active,
    AffineForm.isWithin_iff.2 fun t ht => ?_⟩
  · obtain ⟨i, hi, rfl⟩ := List.mem_map.1 ht
    exact lossVariable_lt (List.mem_range.1 hi)

theorem bounds_nonneg_iff : (∀ F ∈ bounds space states active, 0 ≤ F.value p) ↔
    (∀ s ∈ slots states active, s.Holds p) ∧
      (∀ i < states.length, 0 ≤ Row.entry p (lossVariable active i) ∧
        Row.entry p (lossVariable active i) ≤ 1) ∧
      ∀ x ∈ space, lossIn states active p x ≤ -totalPayoff p (slots states active) x := by
  simp only [bounds, List.forall_mem_append, List.forall_mem_flatMap, Slot.constraints_nonneg_iff,
    lossBounds_nonneg_iff, List.mem_range, List.forall_mem_map, value_loss, sub_nonneg,
    SortedSet.mem_toList, and_assoc]

/-- The points of a round's program. -/
theorem round_feasible_iff (sub : states.Sublist space.toList) (some_cone : active ≠ []) :
    (program space states active).Feasible p ↔ RoundPoint space states active p := by
  have nodup := space.nodup.sublist sub
  rw [(program_maximizes space (.inr some_cone)).feasible_iff, bounds_nonneg_iff]
  constructor
  · rintro ⟨length, -, holds, counts, losses⟩
    have loss (x : σ) (hx : x ∈ space) := (lossIn_le_iff nodup x fun i hi => (counts i hi).1).1 (losses x hx)
    exact ⟨length, holds, counts, fun x hx => (loss x hx).1,
      fun i x at_i => (loss x (sub.subset (List.mem_of_getElem? at_i))).2 i at_i⟩
  · intro h
    exact ⟨h.length, fun _ none => absurd none List.not_mem_nil, h.holds, h.counts, fun x hx =>
      (lossIn_le_iff nodup x fun i hi => (h.counts i hi).1).2 ⟨h.nonpos x hx, fun i => h.losses i x⟩⟩

/-! ## What an optimum counts -/

/-- A nonnegative row on the weights whose combination is nowhere positive. -/
structure Direction (space : SortedSet σ) (states : List σ) (active : List (Cone σ)) (q : Row) : Prop where
  nonneg : ∀ s ∈ slots states active, ∀ v ∈ s.weights, 0 ≤ Row.entry q v
  nonpos : ∀ x ∈ space, totalPayoff q (slots states active) x ≤ 0

/-- The activations are the last variables that count. -/
theorem exists_slot {i : Nat} (low : states.length ≤ i) (high : i < states.length + active.length) :
    ∃ s ∈ slots states active, s.activation = lossVariable active i := by
  have mem : lossVariable active i ∈ (slots states active).map Slot.activation := by
    rw [slots, Slot.map_activation_ofCones, List.mem_range'_1, lossVariable]
    omega
  exact List.mem_map.1 mem

/-- Adding a multiple of a direction, far enough to count every state where it is negative. -/
theorem Direction.exists_raised (h : Direction space states active q)
    (sub : states.Sublist space.toList) (p : Row) :
    ∃ p' c, p'.length = variableCount states active ∧ Raised p q p' c (slots states active) ∧
      (∀ x ∈ states, totalPayoff q (slots states active) x < 0 →
        1 ≤ -(c * totalPayoff q (slots states active) x)) ∧
      ∀ i x, states[i]? = some x → Row.entry p' (lossVariable active i) =
        if totalPayoff q (slots states active) x < 0 then 1 else Row.entry p (lossVariable active i) := by
  classical
  obtain ⟨p', c, length, raised, large, others⟩ := Slot.exists_raised (n := variableCount states active)
    (Nat.le_add_right (rayCount active) states.length) le_rfl p h.nonneg
    (space.toList.map fun x => -totalPayoff q (slots states active) x)
    fun _ v => if ∃ i x, states[i]? = some x ∧ v = lossVariable active i ∧
      totalPayoff q (slots states active) x < 0 then 1 else Row.entry p v
  refine ⟨p', c, length, raised, fun x hx negative => ?_, fun i x at_i => ?_⟩
  · rw [← mul_neg]
    exact large _ (List.mem_map_of_mem (sub.subset hx)) (neg_pos.2 negative)
  · have lt := (List.getElem?_eq_some_iff.1 at_i).1
    rw [others _ (lossVariable_lt (Nat.lt_add_right _ lt)) (Nat.le_add_right _ _)
      (.inl (Nat.add_lt_add_left lt _))]
    refine if_congr ⟨fun ⟨j, y, at_j, same, negative⟩ => ?_,
      fun negative => ⟨i, x, at_i, rfl, negative⟩⟩ rfl rfl
    rw [Nat.add_left_cancel same, at_j] at at_i
    rwa [← Option.some.inj at_i]

/-- A point that counts nowhere less, counts every state where a direction is negative, and activates
every cone that the direction covers. -/
theorem Direction.exists_better (h : Direction space states active q) (sub : states.Sublist space.toList)
    (point : RoundPoint space states active p) : ∃ p', RoundPoint space states active p' ∧
      (∀ i < states.length + active.length,
        Row.entry p (lossVariable active i) ≤ Row.entry p' (lossVariable active i)) ∧
      (∀ s ∈ slots states active, s.Covered q → Row.entry p' s.activation = 1) ∧
      ∀ i x, states[i]? = some x → totalPayoff q (slots states active) x < 0 →
        Row.entry p' (lossVariable active i) = 1 := by
  obtain ⟨p', c, length, raised, large, loss⟩ := h.exists_raised sub p
  have lose (x : σ) (hx : x ∈ space) : c * totalPayoff q (slots states active) x ≤ 0 :=
    mul_nonpos_of_nonneg_of_nonpos raised.factor (h.nonpos x hx)
  refine ⟨p', ⟨length, fun s hs => raised.holds hs (point.holds s hs), fun i hi => ?_, fun x hx => ?_,
    fun i x at_i => ?_⟩, fun i hi => ?_, raised.activated, fun i x at_i negative => ?_⟩
  · rw [loss i states[i] (List.getElem?_eq_getElem hi)]
    split
    · exact ⟨zero_le_one, le_rfl⟩
    · exact point.counts i hi
  · rw [raised.totalPayoff_eq]
    exact add_nonpos (point.nonpos x hx) (lose x hx)
  · have hx := List.mem_of_getElem? at_i
    rw [loss i x at_i, raised.totalPayoff_eq, neg_add]
    split
    · rename_i negative
      exact le_add_of_nonneg_of_le (neg_nonneg.2 (point.nonpos x (sub.subset hx))) (large x hx negative)
    · exact le_add_of_le_of_nonneg (point.losses i x at_i) (neg_nonneg.2 (lose x (sub.subset hx)))
  · rcases Nat.lt_or_ge i states.length with low | high
    · rw [loss i states[i] (List.getElem?_eq_getElem low)]
      split
      · exact (point.counts i low).2
      · exact le_rfl
    · obtain ⟨s, hs, same⟩ := exists_slot high hi
      rw [← same]
      exact raised.activation_le hs (point.holds s hs)
  · rw [loss i x at_i, if_pos negative]

/-- A point of a round that counts as much as any. -/
structure Optimum (space : SortedSet σ) (states : List σ) (active : List (Cone σ)) (p : Row) : Prop
    extends RoundPoint space states active p where
  best : ∀ p', RoundPoint space states active p' → count states active p' ≤ count states active p

theorem RoundPoint.count_le_one (h : RoundPoint space states active p) {i : Nat}
    (hi : i < states.length + active.length) : Row.entry p (lossVariable active i) ≤ 1 := by
  rcases Nat.lt_or_ge i states.length with low | high
  · exact (h.counts i low).2
  · obtain ⟨s, hs, same⟩ := exists_slot high hi
    rw [← same]
    exact (h.holds s hs).le_one

/-- What counts fully at a point that counts nowhere less counts fully at an optimum. -/
theorem Optimum.eq_one (h : Optimum space states active p) {p' : Row}
    (point : RoundPoint space states active p') (more : ∀ i < states.length + active.length,
      Row.entry p (lossVariable active i) ≤ Row.entry p' (lossVariable active i))
    {i : Nat} (hi : i < states.length + active.length) (full : Row.entry p' (lossVariable active i) = 1) :
    Row.entry p (lossVariable active i) = 1 := by
  by_contra ne
  refine absurd (h.best p' point) (not_le.2 ?_)
  refine List.sum_lt_sum _ _ (fun j hj => more j (List.mem_range.1 hj)) ⟨i, List.mem_range.2 hi, ?_⟩
  rw [full]
  exact lt_of_le_of_ne (h.count_le_one hi) ne

/-- An optimum activates what a direction covers. -/
theorem Optimum.activates (h : Optimum space states active p) (sub : states.Sublist space.toList)
    (direction : Direction space states active q) {s : Slot σ} (hs : s ∈ slots states active)
    (covered : s.Covered q) : Row.entry p s.activation = 1 := by
  obtain ⟨p', point, more, activated, -⟩ := direction.exists_better sub h.toRoundPoint
  obtain ⟨low, high⟩ := Slot.activation_mem hs
  have place : s.activation = lossVariable active (s.activation - rayCount active) := by
    rw [lossVariable]
    omega
  rw [place]
  refine h.eq_one point more (by omega) ?_
  rw [← place]
  exact activated s hs covered

/-- An optimum counts the active states where a direction is negative. -/
theorem Optimum.loses (h : Optimum space states active p) (sub : states.Sublist space.toList)
    (direction : Direction space states active q) {i : Nat} {x : σ} (at_i : states[i]? = some x)
    (negative : totalPayoff q (slots states active) x < 0) : Row.entry p (lossVariable active i) = 1 := by
  obtain ⟨p', point, more, -, loses⟩ := direction.exists_better sub h.toRoundPoint
  exact h.eq_one point more (Nat.lt_add_right _ (List.getElem?_eq_some_iff.1 at_i).1)
    (loses i x at_i negative)

/-! ## Losing selections and rounds -/

theorem mem_losingStates {x : σ} : x ∈ losingStates states active p ↔
    ∃ i : Nat, states[i]? = some x ∧ Row.entry p (lossVariable active i) = 1 := by
  simp only [losingStates, List.mem_map, List.mem_filter, Prod.exists, List.mem_zipIdx_iff_getElem?,
    beq_iff_eq, exists_and_right, exists_eq_right]

theorem losingStates_sublist (states : List σ) (active : List (Cone σ)) (p : Row) :
    (losingStates states active p).Sublist states := by
  have := (List.filter_sublist (l := states.zipIdx)
    (p := fun x => Row.entry p (lossVariable active x.2) == 1)).map Prod.fst
  rwa [List.zipIdx_map_fst] at this

/-- A losing selection within the active cones, as a direction that covers its slots. -/
theorem exists_losing_direction {s : Selection cones} (losing : s.Loses)
    (inside : ∀ i ∈ s.entries, i ∈ positions)
    (nodup : positions.Nodup) (space : SortedSet σ) (states : List σ) :
    ∃ q, Direction space states (pick cones positions) q ∧
      (∀ e ∈ seats cones positions 0 (rayCount (pick cones positions) + states.length),
        e.1 ∈ s.entries → e.2.Covered q) ∧
      ∀ x, totalPayoff q (slots states (pick cones positions)) x = s.payoff x := by
  obtain ⟨q, -, direction⟩ :=
    Slot.exists_direction s inside nodup (rayCount (pick cones positions) + states.length)
  obtain ⟨nonneg, covered, total⟩ := direction []
  refine ⟨q ++ [], ⟨nonneg, fun x _ => ?_⟩, covered, total⟩
  exact (total x).trans_le (losing.nonpos x)

/-- The cones of a losing selection stay active. -/
theorem Optimum.survives (h : Optimum space states (pick cones positions) p)
    (sub : states.Sublist space.toList)
    {s : Selection cones} (losing : s.Loses) (inside : ∀ i ∈ s.entries, i ∈ positions)
    (nodup : positions.Nodup) {i : Nat} (hi : i ∈ s.entries) :
    i ∈ survivors p (seats cones positions 0 (rayCount (pick cones positions) + states.length)) := by
  obtain ⟨q, direction, covered, -⟩ := exists_losing_direction losing inside nodup space states
  obtain ⟨t, ht⟩ :=
    Slot.exists_seat_of_position cones (inside i hi) 0 (rayCount (pick cones positions) + states.length)
  refine Slot.mem_survivors.2 ⟨t, ht, beq_iff_eq.2 ?_⟩
  exact h.activates sub direction (Slot.slot_mem ht) (covered _ ht hi)

/-- The states where a losing selection is negative stay active. -/
theorem Optimum.keeps_state (h : Optimum space states (pick cones positions) p)
    (sub : states.Sublist space.toList)
    {s : Selection cones} (losing : s.Loses) (inside : ∀ i ∈ s.entries, i ∈ positions)
    (nodup : positions.Nodup)
    {x : σ} (hx : x ∈ states) (negative : s.payoff x < 0) :
    x ∈ losingStates states (pick cones positions) p := by
  obtain ⟨q, direction, -, total⟩ := exists_losing_direction losing inside nodup space states
  obtain ⟨i, at_i⟩ := List.mem_iff_getElem?.1 hx
  exact mem_losingStates.2 ⟨i, at_i, h.loses sub direction at_i ((total x).trans_lt negative)⟩

/-- Without a stray cone, a point with a losing state is a losing selection of its activated cones. -/
theorem RoundPoint.exists_loses (h : RoundPoint space states (pick cones positions) p)
    (seated : Seated cones positions)
    (covers : ∀ i ∈ positions, ∀ x ∈ (coneAt cones i).domain, x ∈ space)
    (stray : hasStray states (pick cones positions) p = false) {x : σ}
    (hx : x ∈ losingStates states (pick cones positions) p) : ∃ s : Selection cones, s.Loses := by
  obtain ⟨s, entries, payoff⟩ := Slot.exists_selection seated h.holds stray
  obtain ⟨i, at_i, full⟩ := mem_losingStates.1 hx
  have negative : s.payoff x < 0 := by
    have := h.losses i x at_i
    rw [full] at this
    rw [payoff]
    exact lt_of_le_of_lt (le_neg_of_le_neg this) (by decide)
  refine ⟨s, ?_, fun y => ?_, x, negative⟩
  · by_contra none
    rw [Finset.not_nonempty_iff_eq_empty] at none
    rw [Selection.payoff, none, Finset.sum_empty] at negative
    exact lt_irrefl 0 negative
  · by_cases hy : y ∈ space
    · rw [payoff]
      exact h.nonpos y hy
    · refine (Finset.sum_eq_zero fun j hj => Cone.payoff_eq_zero (fun mem => hy ?_) _).le
      rw [entries, List.mem_toFinset] at hj
      exact covers j ((Slot.survivors_sublist _ _ _ _ _).subset hj) y mem

/-! ## The rounds -/

theorem avoids_run (solve : LinearProgram → Solution) (space : SortedSet σ) (states : List σ)
    (active : List (Cone σ)) :
    (avoids (m := Id) solve space states active).run =
      if states.isEmpty || active.isEmpty then .ok true
      else match (solve (program space states active)).optimumOf (program space states active) with
        | .error e => .error e
        | .ok s =>
          if (losingStates states active s.primal).isEmpty then .ok true
          else if (losingStates states active s.primal).length = states.length ∧
              hasStray states active s.primal = false then .ok false
          else (avoids (m := Id) solve space (losingStates states active s.primal)
            (activeCones states active s.primal)).run := by
  rw [avoids]
  split
  · rfl
  · rw [Query.run_optimum_bind]
    cases (solve (program space states active)).optimumOf (program space states active) with
    | error e => rfl
    | ok s =>
      dsimp only
      split
      · rfl
      · split <;> rfl

/-- The rounds of a run, with its result. -/
inductive Run (solve : LinearProgram → Solution) (space : SortedSet σ) :
    List σ → List (Cone σ) → Except Error Bool → Prop
  | empty {states : List σ} {active : List (Cone σ)} : (states.isEmpty || active.isEmpty) = true →
      Run solve space states active (.ok true)
  | failed {states : List σ} {active : List (Cone σ)} {e : Error} :
      (states.isEmpty || active.isEmpty) = false →
      (solve (program space states active)).optimumOf (program space states active) = .error e →
      Run solve space states active (.error e)
  | none {states : List σ} {active : List (Cone σ)} {s : Solution} :
      (states.isEmpty || active.isEmpty) = false →
      (solve (program space states active)).optimumOf (program space states active) = .ok s →
      (losingStates states active s.primal).isEmpty = true → Run solve space states active (.ok true)
  | all {states : List σ} {active : List (Cone σ)} {s : Solution} :
      (states.isEmpty || active.isEmpty) = false →
      (solve (program space states active)).optimumOf (program space states active) = .ok s →
      (losingStates states active s.primal).isEmpty = false →
      (losingStates states active s.primal).length = states.length ∧ hasStray states active s.primal = false →
      Run solve space states active (.ok false)
  | next {states : List σ} {active : List (Cone σ)} {s : Solution} {r : Except Error Bool} :
      (states.isEmpty || active.isEmpty) = false →
      (solve (program space states active)).optimumOf (program space states active) = .ok s →
      (losingStates states active s.primal).isEmpty = false →
      ¬((losingStates states active s.primal).length = states.length ∧
        hasStray states active s.primal = false) →
      Run solve space (losingStates states active s.primal) (activeCones states active s.primal) r →
      Run solve space states active r

/-- The induction is on the number of active states and cones. -/
theorem run_avoids (solve : LinearProgram → Solution) (space : SortedSet σ) (states : List σ)
    (active : List (Cone σ)) :
    Run solve space states active (avoids (m := Id) solve space states active).run := by
  induction size : states.length + active.length using Nat.strong_induction_on generalizing states active with
  | _ n ih =>
    rw [avoids_run]
    split
    · rename_i empty
      exact .empty empty
    rename_i some_left
    have some_left := Bool.eq_false_iff.2 some_left
    split
    · rename_i e failed
      exact .failed some_left failed
    rename_i s solved
    split
    · rename_i none
      exact .none some_left solved none
    rename_i some_state
    have some_state := Bool.eq_false_iff.2 some_state
    split
    · rename_i all
      exact .all some_left solved some_state all
    · rename_i done
      have fewer := next_lt done
      rw [size] at fewer
      exact .next some_left solved some_state done (ih _ fewer _ _ rfl)

theorem some_cone_of_left (some_left : (states.isEmpty || active.isEmpty) = false) : active ≠ [] :=
  fun none => by
  rw [none, List.isEmpty_nil, Bool.or_true] at some_left
  cases some_left

theorem Run.eq {solve : LinearProgram → Solution} {r : Except Error Bool}
    (run : Run solve space states active r) :
    (avoids (m := Id) solve space states active).run = r := by
  induction run with
  | empty empty => exact (avoids_run solve space _ _).trans (if_pos empty)
  | failed some_left solved => rw [avoids_run, if_neg (Bool.eq_false_iff.1 some_left), solved]
  | none some_left solved none =>
    rw [avoids_run, if_neg (Bool.eq_false_iff.1 some_left), solved]
    exact if_pos none
  | all some_left solved some_state all =>
    rw [avoids_run, if_neg (Bool.eq_false_iff.1 some_left), solved]
    exact (if_neg (Bool.eq_false_iff.1 some_state)).trans (if_pos all)
  | next some_left solved some_state done _ ih =>
    rw [avoids_run, if_neg (Bool.eq_false_iff.1 some_left), solved]
    exact (if_neg (Bool.eq_false_iff.1 some_state)).trans ((if_neg done).trans ih)

theorem count_bounded (sub : states.Sublist space.toList) (some_cone : active ≠ []) :
    ∃ bound, ∀ p, (program space states active).Feasible p → sumTerms (counted states active) p ≤ bound := by
  refine ⟨((List.range (states.length + active.length)).map fun _ => 1).sum, fun p feasible => ?_⟩
  rw [sumTerms_counted]
  exact List.sum_le_sum fun i hi =>
    ((round_feasible_iff sub some_cone).1 feasible).count_le_one (List.mem_range.1 hi)

/-- To count nothing is always possible. -/
theorem roundPoint_zero (space : SortedSet σ) (states : List σ) (active : List (Cone σ)) :
    RoundPoint space states active (Row.zero (variableCount states active)) := by
  have idle (x : σ) : totalPayoff (Row.zero (variableCount states active)) (slots states active) x = 0 := by
    refine List.sum_eq_zero fun v hv => ?_
    obtain ⟨t, -, rfl⟩ := List.mem_map.1 hv
    exact Slot.payoff_eq_zero_of_unused fun v _ => Row.entry_zero _ v
  refine ⟨Row.length_zero _, fun s _ => ⟨?_, ?_, fun v _ => ?_, fun v _ => ?_⟩, fun i _ => ⟨?_, ?_⟩,
    fun x _ => ?_, fun i x _ => ?_⟩
  · exact (Row.entry_zero _ _).ge
  · exact (Row.entry_zero _ _).trans_le zero_le_one
  · exact (Row.entry_zero _ v).ge
  · rw [Row.entry_zero, Row.entry_zero]
  · exact (Row.entry_zero _ _).ge
  · exact (Row.entry_zero _ _).trans_le zero_le_one
  · exact (idle x).le
  · rw [idle, neg_zero, Row.entry_zero]

/-- States and positions that are left in some round: those that any losing selection needs are. -/
structure Remaining (space : SortedSet σ) (states : List σ) (cones : List (Cone σ)) (positions : List Nat) :
    Prop where
  sublist : states.Sublist space.toList
  seated : Seated cones positions
  covers : ∀ i ∈ positions, ∀ x ∈ (coneAt cones i).domain, x ∈ space
  keepStates : ∀ s : Selection cones, s.Loses → ∀ x, s.payoff x < 0 → x ∈ states
  keepCones : ∀ s : Selection cones, s.Loses → ∀ i ∈ s.entries, i ∈ positions

theorem Remaining.not_loses_of_empty (h : Remaining space states cones positions)
    (empty : (states.isEmpty || (pick cones positions).isEmpty) = true) (s : Selection cones) : ¬s.Loses := by
  intro losing
  rcases Bool.or_eq_true_iff.1 empty with none | none
  · obtain ⟨x, negative⟩ := losing.negative
    have := h.keepStates s losing x negative
    rw [List.isEmpty_iff.1 none] at this
    exact List.not_mem_nil this
  · obtain ⟨i, hi⟩ := losing.some_entry
    have : coneAt cones i ∈ pick cones positions := List.mem_map_of_mem (h.keepCones s losing i hi)
    rw [List.isEmpty_iff.1 none] at this
    exact List.not_mem_nil this

theorem Remaining.not_loses_of_none (h : Remaining space states cones positions)
    (optimum : Optimum space states (pick cones positions) p)
    (none : (losingStates states (pick cones positions) p).isEmpty = true) (s : Selection cones) :
    ¬s.Loses := by
  intro losing
  obtain ⟨x, negative⟩ := losing.negative
  have := optimum.keeps_state h.sublist losing (h.keepCones s losing) h.seated.nodup
    (h.keepStates s losing x negative) negative
  rw [List.isEmpty_iff.1 none] at this
  exact List.not_mem_nil this

/-- What an optimum leaves is left for the next round. -/
theorem Remaining.next (h : Remaining space states cones positions)
    (optimum : Optimum space states (pick cones positions) p) :
    Remaining space (losingStates states (pick cones positions) p) cones
      (survivors p (seats cones positions 0 (rayCount (pick cones positions) + states.length))) := by
  have sub := Slot.survivors_sublist p cones positions 0 (rayCount (pick cones positions) + states.length)
  refine ⟨(losingStates_sublist _ _ _).trans h.sublist, h.seated.sublist sub,
    fun i hi => h.covers i (sub.subset hi), fun s losing x negative => ?_, fun s losing i hi => ?_⟩
  · exact optimum.keeps_state h.sublist losing (h.keepCones s losing) h.seated.nodup
      (h.keepStates s losing x negative) negative
  · exact optimum.survives h.sublist losing (h.keepCones s losing) h.seated.nodup hi

/-- The rounds from what is left in any round. The induction is on the number of states and cones. -/
theorem exists_avoids (h : Remaining space states cones positions) : ∃ limit answer, (∀ maxPivots ≥ limit,
      (avoids (m := Id) (Simplex.solve maxPivots) space states (pick cones positions)).run = .ok answer) ∧
      (answer = false ↔ ∃ s : Selection cones, s.Loses) := by
  induction left : states.length + positions.length
    using Nat.strong_induction_on generalizing states positions with
  | _ n ih =>
    have yes (never : ∀ s : Selection cones, ¬s.Loses) : true = false ↔ ∃ s : Selection cones, s.Loses :=
      ⟨fun e => absurd e.symm Bool.false_ne_true, fun ⟨s, losing⟩ => absurd losing (never s)⟩
    by_cases empty : (states.isEmpty || (pick cones positions).isEmpty) = true
    · exact ⟨0, true, fun maxPivots _ => by rw [avoids_run, if_pos empty], yes (h.not_loses_of_empty empty)⟩
    have some_cone : pick cones positions ≠ [] := fun none => empty (by rw [none]; exact Bool.or_true _)
    obtain ⟨limit, s, answers, optimal | ⟨-, infeasible⟩⟩ :=
      (program_maximizes space (.inr some_cone)).exists_answer (count_bounded h.sublist some_cone)
    · have optimum : Optimum space states (pick cones positions) s.primal := by
        refine ⟨(round_feasible_iff h.sublist some_cone).1 optimal.feasible, fun p point => ?_⟩
        rw [← sumTerms_counted, ← sumTerms_counted]
        exact optimal.best p ((round_feasible_iff h.sublist some_cone).2 point)
      by_cases none : (losingStates states (pick cones positions) s.primal).isEmpty = true
      · refine ⟨limit, true, fun maxPivots le => ?_, yes (h.not_loses_of_none optimum none)⟩
        rw [avoids_run, if_neg empty, answers maxPivots le, optimal.accepted]
        exact if_pos none
      by_cases done : (losingStates states (pick cones positions) s.primal).length = states.length ∧
          hasStray states (pick cones positions) s.primal = false
      · refine ⟨limit, false, fun maxPivots le => ?_, ⟨fun _ => ?_, fun _ => rfl⟩⟩
        · rw [avoids_run, if_neg empty, answers maxPivots le, optimal.accepted]
          dsimp only
          rw [if_neg none, if_pos done]
        · obtain ⟨x, hx⟩ := List.exists_mem_of_ne_nil _ fun e => none (List.isEmpty_iff.2 e)
          exact optimum.exists_loses h.seated h.covers done.2 hx
      · have fewer := next_lt done
        have next : activeCones states (pick cones positions) s.primal = pick cones
            (survivors s.primal
              (seats cones positions 0 (rayCount (pick cones positions) + states.length))) :=
          Slot.activeCones_eq_pick s.primal cones positions 0
            (rayCount (pick cones positions) + states.length)
        rw [next, pick, pick, List.length_map, List.length_map, left] at fewer
        obtain ⟨limit', answer, answers', decides⟩ := ih _ fewer (h.next optimum) rfl
        refine ⟨max limit limit', answer, fun maxPivots le => ?_, decides⟩
        rw [avoids_run, if_neg empty, answers maxPivots ((le_max_left _ _).trans le), optimal.accepted]
        dsimp only
        rw [if_neg none, if_neg done, next]
        exact answers' maxPivots ((le_max_right _ _).trans le)
    · exact absurd ((round_feasible_iff h.sublist some_cone).2 (roundPoint_zero space states _))
        (infeasible _)

/-- All states and all cones of a set of desirable gambles, at the start. -/
theorem remaining_all (D : DesirabilitySet σ) :
    Remaining D.domain D.domain.toList D.cones.toList (List.range D.cones.toList.length) := by
  have covers : ∀ i < D.cones.toList.length, ∀ x ∈ (coneAt D.cones.toList i).domain, x ∈ D.domain :=
    fun i hi x hx => SortedSet.mem_flatMap.2 ⟨_, coneAt_mem hi, hx⟩
  refine ⟨.refl _, ⟨List.pairwise_lt_range, fun i hi => List.mem_range.1 hi, fun i hi => ?_⟩,
    fun i hi => covers i (List.mem_range.1 hi), fun s _ x negative => ?_,
    fun s _ i hi => List.mem_range.2 (s.lt_length i hi)⟩
  · exact D.nonempty _ (coneAt_mem (List.mem_range.1 hi))
  · by_contra out
    refine negative.ne (Finset.sum_eq_zero fun i hi => Cone.payoff_eq_zero (fun mem => out ?_) _)
    exact covers i (s.lt_length i hi) x mem

end PartialLoss

namespace DesirabilitySet

/-- With enough pivots, partial loss is decided. -/
theorem exists_limit_avoidsPartialLoss (D : DesirabilitySet σ) : ∃ limit, ∀ maxPivots ≥ limit, ∃ b,
    (D.avoidsPartialLoss (m := Id) (Simplex.solve maxPivots)).run = .ok b ∧
      (b = true ↔ ¬∃ s : Selection D.cones.toList, s.Loses) := by
  obtain ⟨limit, answer, answers, decides⟩ := PartialLoss.exists_avoids (PartialLoss.remaining_all D)
  refine ⟨limit, fun maxPivots le => ⟨answer, ?_, ?_⟩⟩
  · rw [avoidsPartialLoss, ← answers maxPivots le, pick_range]
  · rw [← decides, Bool.not_eq_false]

/-- With enough pivots, a set of desirable gambles incurs partial loss exactly if some selection of its
cones loses, and avoids it otherwise. -/
theorem exists_avoidsPartialLoss (D : DesirabilitySet σ) : ∃ limit, ∀ maxPivots ≥ limit,
    ((avoidsPartialLoss (m := Id) (Simplex.solve maxPivots) D).run = .ok false ↔
      ∃ s : Selection D.cones.toList, s.Loses) ∧
    ((avoidsPartialLoss (m := Id) (Simplex.solve maxPivots) D).run = .ok true ↔
      ¬∃ s : Selection D.cones.toList, s.Loses) := by
  obtain ⟨limit, answers⟩ := exists_limit_avoidsPartialLoss D
  refine ⟨limit, fun maxPivots le => ?_⟩
  obtain ⟨answer, run, decides⟩ := answers maxPivots le
  rw [run, ← decides, Except.ok.injEq, Except.ok.injEq, ← Bool.not_eq_true, decides, not_not]
  exact ⟨Iff.rfl, Iff.rfl⟩

end DesirabilitySet

end Prevision
