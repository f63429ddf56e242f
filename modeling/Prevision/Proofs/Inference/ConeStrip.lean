import Prevision.Inference.ConeStrip
import Prevision.Proofs.Inference.Rounds

/-!
# Stripping cones decides and exhausts

With enough pivots, `ConeStrip.feasible` finds a witness exactly if some
selection of the cones is exact, and the witness has every entry that occurs
in an exact selection.

Each round maximizes the number of activated cones. At an optimum a slot is
activated as soon as some combination that could be added has positive weights
on all its rays (`Optimum.activates`). So activations are zero or one, no cone of
an exact selection is stripped, and when no stripped cone has weight left, the
activated cones are an exact selection themselves.

* `round_feasible_iff`: the points of a round's program;
* `Optimum.survives`: what an exact selection needs stays active;
* `run_strip`, `Run.eq`: a run as the sequence of its rounds, for inductions over any run;
* `exists_strip`: the rounds, by induction on the number of active cones;
* `exists_feasible`: the main result.
-/

namespace Prevision

open AffineForm (sumTerms)
open Slot (totalPayoff rayCount seats survivors Seated Raised)

variable {σ : Type} [State σ] {cones active : List (Cone σ)} {positions : List Nat} {states : SortedSet σ}
  {target : Option (Gamble σ)} {p q : Row}

namespace ConeStrip

/-! ## The program of a round -/

/-- A point of a round's program. -/
structure RoundPoint (active : List (Cone σ)) (states : SortedSet σ) (target : Option (Gamble σ))
    (p : Row) : Prop where
  length : p.length = scaleVariable active + target.toList.length
  balanced : ∀ x ∈ states,
    totalPayoff p (slots active) x = targetPayoff target (Row.entry p (scaleVariable active)) x
  holds : ∀ s ∈ slots active, s.Holds p
  some_active : 1 ≤ sumTerms (activations active) p
  scale : target.isSome = true → 1 ≤ Row.entry p (scaleVariable active)

theorem value_balance (active : List (Cone σ)) (target : Option (Gamble σ)) (x : σ) (p : Row) :
    (balance active target x).value p =
      totalPayoff p (slots active) x - targetPayoff target (Row.entry p (scaleVariable active)) x := by
  rw [AffineForm.value_eq, balance, AffineForm.sumTerms_append, Slot.sumTerms_flatMap_payoffTerms,
    one_mul, zero_add, sub_eq_add_neg]
  cases target with
  | none => rw [targetPayoff_none, neg_zero]; rfl
  | some f =>
    rw [targetPayoff_some]
    show _ + sumTerms [(scaleVariable active, -f.payoff x)] p = _
    rw [AffineForm.sumTerms_cons, AffineForm.sumTerms_nil, add_zero, neg_mul, mul_comm]

theorem sumTerms_activations (active : List (Cone σ)) (p : Row) : sumTerms (activations active) p =
    ((slots active).map fun s => Row.entry p s.activation).sum := by
  rw [activations, sumTerms, List.map_map]
  exact congrArg List.sum (List.map_congr_left fun s _ => one_mul _)

/-- The forms of a round that are to be at least zero. -/
def bounds (active : List (Cone σ)) (target : Option (Gamble σ)) : List AffineForm :=
  (slots active).flatMap Slot.constraints ++ [⟨-1, activations active⟩] ++
    target.toList.map fun _ => ⟨-1, [(scaleVariable active, 1)]⟩

theorem slot_variables {s : Slot σ} (hs : s ∈ slots active) :
    (∀ v ∈ s.weights, v < rayCount active) ∧ rayCount active ≤ s.activation ∧
      s.activation < scaleVariable active := by
  refine ⟨fun v hv => ?_, Slot.activation_mem hs⟩
  have := (Slot.weight_mem hs hv).2
  rwa [Nat.zero_add] at this

theorem balance_within (active : List (Cone σ)) (target : Option (Gamble σ)) (x : σ) :
    (balance active target x).isWithin (scaleVariable active + target.toList.length) = true := by
  refine AffineForm.isWithin_iff.2 fun t ht => ?_
  rcases List.mem_append.1 ht with weight | scale
  · obtain ⟨s, hs, ht⟩ := List.mem_flatMap.1 weight
    exact Slot.payoffTerms_within (fun v hv =>
      Nat.lt_add_right _ (Nat.lt_add_right _ ((slot_variables hs).1 v hv))) 1 x t ht
  · cases target with
    | none => exact absurd scale List.not_mem_nil
    | some f =>
      cases List.mem_singleton.1 scale
      exact Nat.lt_succ_self _

theorem activations_lt {t : Nat × Rat} (ht : t ∈ activations active) : t.1 < scaleVariable active := by
  obtain ⟨s, hs, rfl⟩ := List.mem_map.1 ht
  exact (slot_variables hs).2.2

theorem bounds_within (active : List (Cone σ)) (target : Option (Gamble σ)) :
    ∀ F ∈ bounds active target, F.isWithin (scaleVariable active + target.toList.length) = true := by
  intro F hF
  rcases List.mem_append.1 hF with early | scale
  · rcases List.mem_append.1 early with slot | some_active
    · obtain ⟨s, hs, hF⟩ := List.mem_flatMap.1 slot
      obtain ⟨weights, -, activation⟩ := slot_variables hs
      exact Slot.constraints_within (fun v hv => Nat.lt_add_right _ (Nat.lt_add_right _ (weights v hv)))
        (Nat.lt_add_right _ activation) F hF
    · cases List.mem_singleton.1 some_active
      exact AffineForm.isWithin_iff.2 fun t ht => Nat.lt_add_right _ (activations_lt ht)
  · cases target with
    | none => exact absurd scale List.not_mem_nil
    | some f =>
      cases List.mem_singleton.1 scale
      refine AffineForm.isWithin_iff.2 fun t ht => ?_
      cases List.mem_singleton.1 ht
      exact Nat.lt_succ_self _

theorem program_maximizes (active : List (Cone σ)) (states : SortedSet σ) (target : Option (Gamble σ)) :
    (program active states target).Maximizes (scaleVariable active + target.toList.length)
      (states.toList.map (balance active target)) (bounds active target) (activations active) := by
  refine ⟨?_, ?_, ?_, rfl, fun F hF => ?_,
    AffineForm.isWithin_iff.2 fun t ht => Nat.lt_add_right _ (activations_lt ht)⟩
  · rw [bounds, ← List.append_assoc, ← List.append_assoc]
    rfl
  · rw [bounds]
    simp
  · rw [List.length_map]
    rfl
  · rcases List.mem_append.1 hF with zero | bound
    · obtain ⟨x, -, rfl⟩ := List.mem_map.1 zero
      exact balance_within active target x
    · exact bounds_within active target F bound

theorem bounds_nonneg_iff :
    (∀ F ∈ bounds active target, 0 ≤ F.value p) ↔ (∀ s ∈ slots active, s.Holds p) ∧
    1 ≤ sumTerms (activations active) p ∧
    (target.isSome = true → 1 ≤ Row.entry p (scaleVariable active)) := by
  have value (terms : List (Nat × Rat)) :
      0 ≤ (⟨-1, terms⟩ : AffineForm).value p ↔ 1 ≤ sumTerms terms p := by
    rw [AffineForm.value_eq]
    constructor <;> intro h <;> linarith
  have scale :
      (∀ F ∈ target.toList.map fun _ => (⟨-1, [(scaleVariable active, 1)]⟩ : AffineForm), 0 ≤ F.value p) ↔
      (target.isSome = true → 1 ≤ Row.entry p (scaleVariable active)) := by
    cases target with
    | none => simp
    | some f => simp [value]
  rw [bounds, List.forall_mem_append, List.forall_mem_append, List.forall_mem_singleton,
    Slot.flatMap_constraints_nonneg_iff, value, scale, and_assoc]

/-- The points of a round's program. -/
theorem round_feasible_iff :
    (program active states target).Feasible p ↔ RoundPoint active states target p := by
  have balanced : (∀ F ∈ states.toList.map (balance active target), F.value p = 0) ↔ ∀ x ∈ states,
      totalPayoff p (slots active) x = targetPayoff target (Row.entry p (scaleVariable active)) x := by
    simp only [List.forall_mem_map, value_balance, sub_eq_zero, SortedSet.mem_toList]
  rw [(program_maximizes active states target).feasible_iff, balanced, bounds_nonneg_iff]
  constructor
  · rintro ⟨length, balanced, holds, some_active, scale⟩
    exact ⟨length, balanced, holds, some_active, scale⟩
  · intro h
    exact ⟨h.length, h.balanced, h.holds, h.some_active, h.scale⟩

/-! ## What an optimum activates -/

/-- A nonnegative row on the weights, balanced like a point of the program. -/
structure Direction (active : List (Cone σ)) (states : SortedSet σ) (target : Option (Gamble σ))
    (q : Row) : Prop where
  nonneg : ∀ s ∈ slots active, ∀ v ∈ s.weights, 0 ≤ Row.entry q v
  scale : 0 ≤ Row.entry q (scaleVariable active)
  balanced : ∀ x ∈ states,
    totalPayoff q (slots active) x = targetPayoff target (Row.entry q (scaleVariable active)) x

/-- Adding a multiple of a direction, far enough to activate what it covers. -/
theorem Direction.exists_raised (h : Direction active states target q) (p : Row)
    (balanced : ∀ x ∈ states,
      totalPayoff p (slots active) x = targetPayoff target (Row.entry p (scaleVariable active)) x) :
    ∃ p' c, p'.length = scaleVariable active + target.toList.length ∧ Raised p q p' c (slots active) ∧
      (∀ x ∈ states,
        totalPayoff p' (slots active) x = targetPayoff target (Row.entry p' (scaleVariable active)) x) ∧
      (0 < Row.entry q (scaleVariable active) → 1 ≤ c * Row.entry q (scaleVariable active)) ∧
      (target.isSome = true → Row.entry p' (scaleVariable active) =
        Row.entry p (scaleVariable active) + c * Row.entry q (scaleVariable active)) := by
  obtain ⟨p', c, length, raised, large, others⟩ :=
    Slot.exists_raised (n := scaleVariable active + target.toList.length)
    le_rfl (Nat.le_add_right _ _) p h.nonneg [Row.entry q (scaleVariable active)]
    fun c v => Row.entry p v + c * Row.entry q v
  have raised : Raised p q p' c (slots active) := raised
  have scale : target.isSome = true → Row.entry p' (scaleVariable active) =
      Row.entry p (scaleVariable active) + c * Row.entry q (scaleVariable active) := by
    intro some_target
    obtain ⟨f, rfl⟩ := Option.isSome_iff_exists.1 some_target
    exact others _ (Nat.lt_succ_self _) (Nat.le_add_right _ _) (.inr le_rfl)
  refine ⟨p', c, length, raised, fun x hx => ?_, large _ List.mem_cons_self, scale⟩
  rw [raised.totalPayoff_eq, balanced x hx, h.balanced x hx, ← targetPayoff_add_mul]
  cases target with
  | none => rfl
  | some f => rw [scale rfl]

theorem Direction.exists_better (h : Direction active states target q)
    (point : RoundPoint active states target p) :
    ∃ p', RoundPoint active states target p' ∧
      (∀ s ∈ slots active, Row.entry p s.activation ≤ Row.entry p' s.activation) ∧
      ∀ s ∈ slots active, s.Covered q → Row.entry p' s.activation = 1 := by
  obtain ⟨p', c, length, raised, balanced, -, scale⟩ := h.exists_raised p point.balanced
  have more : ∀ s ∈ slots active, Row.entry p s.activation ≤ Row.entry p' s.activation :=
    fun s hs => raised.activation_le hs (point.holds s hs)
  refine ⟨p', ⟨length, balanced, fun s hs => raised.holds hs (point.holds s hs), ?_,
    fun some_target => ?_⟩, more, raised.activated⟩
  · refine point.some_active.trans ?_
    rw [sumTerms_activations, sumTerms_activations]
    exact List.sum_le_sum more
  · rw [scale some_target]
    exact (point.scale some_target).trans (le_add_of_nonneg_right (mul_nonneg raised.factor h.scale))

/-- A point of a round that activates as much as any. -/
structure Optimum (active : List (Cone σ)) (states : SortedSet σ) (target : Option (Gamble σ))
    (p : Row) : Prop extends RoundPoint active states target p where
  best : ∀ p', RoundPoint active states target p' →
    sumTerms (activations active) p' ≤ sumTerms (activations active) p

/-- An optimum activates what a direction covers. -/
theorem Optimum.activates (h : Optimum active states target p) (direction : Direction active states target q)
    {s : Slot σ} (hs : s ∈ slots active) (covered : s.Covered q) : Row.entry p s.activation = 1 := by
  obtain ⟨p', point, more, activated⟩ := direction.exists_better h.toRoundPoint
  by_contra ne
  refine absurd (h.best p' point) (not_le.2 ?_)
  rw [sumTerms_activations, sumTerms_activations]
  refine List.sum_lt_sum _ _ more ⟨s, hs, ?_⟩
  rw [activated s hs covered]
  exact lt_of_le_of_ne (h.holds s hs).le_one ne

theorem RoundPoint.direction (h : RoundPoint active states target p) : Direction active states target p := by
  refine ⟨fun s hs => (h.holds s hs).weights, ?_, h.balanced⟩
  cases target with
  | none => exact (Row.entry_of_le h.length.le).ge
  | some f => exact zero_le_one.trans (h.scale rfl)

/-- At an optimum, activations are zero or one. -/
theorem Optimum.activation_eq (h : Optimum active states target p) {s : Slot σ} (hs : s ∈ slots active)
    (inactive : s.isActive p = false) : Row.entry p s.activation = 0 := by
  refine le_antisymm ?_ (h.holds s hs).nonneg
  by_contra pos
  have covered : s.Covered p := fun v hv => (not_le.1 pos).trans_le ((h.holds s hs).covered v hv)
  exact Bool.false_ne_true (inactive.symm.trans
    (beq_iff_eq.2 (h.activates h.toRoundPoint.direction hs covered)))

/-! ## Exact selections and rounds -/

/-- The states are those where the cones at the positions or the target have a payoff, and maybe more. -/
structure Covers (states : SortedSet σ) (cones : List (Cone σ)) (positions : List Nat)
    (target : Option (Gamble σ)) : Prop where
  cones : ∀ i ∈ positions, ∀ x ∈ (coneAt cones i).domain, x ∈ states
  target : ∀ f, target = some f → ∀ x ∈ f.domain, x ∈ states

/-- An exact selection within the active cones, as a direction that covers its slots. -/
theorem exists_exact_direction {s : Selection cones} (exact : s.Exact target)
    (inside : ∀ i ∈ s.entries, i ∈ positions) (nodup : positions.Nodup) (states : SortedSet σ) :
    ∃ q, Direction (pick cones positions) states target q ∧
      0 < Row.entry q (scaleVariable (pick cones positions)) ∧
      ∀ e ∈ seats cones positions 0 (rayCount (pick cones positions)), e.1 ∈ s.entries → e.2.Covered q := by
  obtain ⟨multiple, pos, balanced⟩ := exact.balanced
  obtain ⟨q, length, direction⟩ :=
    Slot.exists_direction s inside nodup (rayCount (pick cones positions))
  obtain ⟨nonneg, covered, total⟩ :=
    direction (Row.zero (pick cones positions).length ++ [multiple])
  have scale : Row.entry (q ++ (Row.zero (pick cones positions).length ++ [multiple]))
      (scaleVariable (pick cones positions)) = multiple := by
    rw [scaleVariable, Row.entry_append_right (by omega), length, Nat.add_sub_cancel_left,
      Row.entry_append_right (by rw [Row.length_zero]), Row.length_zero, Nat.sub_self]
    rfl
  refine ⟨_, ⟨nonneg, ?_, fun x _ => ?_⟩, ?_, covered⟩
  · rw [scale]
    exact pos.le
  · rw [scale, ← balanced x]
    exact total x
  · rwa [scale]

/-- The cones of an exact selection are activated. -/
theorem Optimum.survives (h : Optimum (pick cones positions) states target p) {s : Selection cones}
    (exact : s.Exact target) (inside : ∀ i ∈ s.entries, i ∈ positions) (nodup : positions.Nodup) {i : Nat}
    (hi : i ∈ s.entries) : i ∈ survivors p (seats cones positions 0 (rayCount (pick cones positions))) := by
  obtain ⟨q, direction, -, covered⟩ := exists_exact_direction exact inside nodup states
  obtain ⟨t, ht⟩ := Slot.exists_seat_of_position cones (inside i hi) 0 (rayCount (pick cones positions))
  refine Slot.mem_survivors.2 ⟨t, ht, beq_iff_eq.2 ?_⟩
  exact h.activates direction (Slot.slot_mem ht) (covered _ ht hi)

/-- An exact selection within the active cones makes the program of the round feasible. -/
theorem exists_roundPoint {s : Selection cones} (exact : s.Exact target)
    (inside : ∀ i ∈ s.entries, i ∈ positions) (nodup : positions.Nodup) (states : SortedSet σ) :
    ∃ p, RoundPoint (pick cones positions) states target p := by
  obtain ⟨q, direction, pos, covered⟩ := exists_exact_direction exact inside nodup states
  have idle (x : σ) : totalPayoff [] (slots (pick cones positions)) x = 0 := by
    refine List.sum_eq_zero fun v hv => ?_
    obtain ⟨t, -, rfl⟩ := List.mem_map.1 hv
    exact Slot.payoff_eq_zero_of_unused fun v _ => Row.entry_nil v
  have zero (x : σ) : targetPayoff target 0 x = 0 := by
    cases target with
    | none => rfl
    | some f => rw [targetPayoff_some, zero_mul]
  obtain ⟨p, c, length, raised, balanced, large, scale⟩ := direction.exists_raised [] fun x _ => by
    rw [idle, Row.entry_nil, zero]
  have holds : ∀ t ∈ slots (pick cones positions), t.Holds p := fun t ht => raised.holds ht
    ⟨(Row.entry_nil _).ge, (Row.entry_nil _).trans_le zero_le_one, fun v _ => (Row.entry_nil v).ge,
      fun v _ => ((Row.entry_nil _).trans (Row.entry_nil v).symm).le⟩
  refine ⟨p, length, balanced, holds, ?_, fun some_target => ?_⟩
  · obtain ⟨i, hi⟩ := exact.some_entry
    obtain ⟨t, ht⟩ := Slot.exists_seat_of_position cones (inside i hi) 0 (rayCount (pick cones positions))
    have member : t ∈ slots (pick cones positions) := Slot.slot_mem ht
    rw [sumTerms_activations, ← raised.activated t member (covered _ ht hi)]
    refine List.single_le_sum (fun v hv => ?_) _ (List.mem_map_of_mem member)
    obtain ⟨u, hu, rfl⟩ := List.mem_map.1 hv
    exact (holds u hu).nonneg
  · rw [scale some_target, Row.entry_nil, zero_add]
    exact large pos

/-- Outside the states of the programs everything is zero. -/
theorem Covers.balanced (covers : Covers states cones positions target) {s : Selection cones}
    (inside : ∀ i ∈ s.entries, i ∈ positions) {multiple : Rat}
    (balanced : ∀ x ∈ states, s.payoff x = targetPayoff target multiple x) (x : σ) :
    s.payoff x = targetPayoff target multiple x := by
  by_cases hx : x ∈ states
  · exact balanced x hx
  · have left : s.payoff x = 0 := Finset.sum_eq_zero fun i hi =>
      Cone.payoff_eq_zero (fun mem => hx (covers.cones i (inside i hi) x mem)) _
    rw [left]
    cases target with
    | none => rfl
    | some f =>
      have zero : f.payoff x = 0 := Table.payoff_eq_zero fun mem => hx (covers.target f rfl x mem)
      rw [targetPayoff_some, zero, mul_zero]

/-- An optimum activates some cone. -/
theorem Optimum.exists_survivor (h : Optimum (pick cones positions) states target p) :
    ∃ i, i ∈ survivors p (seats cones positions 0 (rayCount (pick cones positions))) := by
  by_contra none
  push Not at none
  have zero : sumTerms (activations (pick cones positions)) p = 0 := by
    rw [sumTerms_activations]
    refine List.sum_eq_zero fun v hv => ?_
    obtain ⟨t, ht, rfl⟩ := List.mem_map.1 hv
    obtain ⟨i, hi⟩ := Slot.exists_seat ht
    exact h.activation_eq ht (Bool.eq_false_iff.2 fun active => none i (Slot.mem_survivors.2 ⟨t, hi, active⟩))
  have := h.some_active
  rw [zero] at this
  exact absurd this (by decide)

/-- Without a stray cone, the activated cones of a round are an exact selection. -/
theorem Optimum.exists_exact (h : Optimum (pick cones positions) states target p)
    (seated : Seated cones positions) (covers : Covers states cones positions target)
    (stray : (slots (pick cones positions)).any (Slot.isStray p) = false) :
    ∃ s : Selection cones, s.Exact target ∧
      s.entries = (survivors p (seats cones positions 0 (rayCount (pick cones positions)))).toFinset ∧
      ∀ x, totalPayoff p (slots (pick cones positions)) x =
        targetPayoff target (Row.entry p (scaleVariable (pick cones positions))) x := by
  obtain ⟨s, entries, payoff⟩ := Slot.exists_selection seated h.holds stray
  have inside : ∀ i ∈ s.entries, i ∈ positions := by
    intro i hi
    rw [entries, List.mem_toFinset] at hi
    exact (Slot.survivors_sublist _ _ _ _ _).subset hi
  have balanced : ∀ x, s.payoff x =
      targetPayoff target (Row.entry p (scaleVariable (pick cones positions))) x :=
    covers.balanced inside fun x hx => (payoff x).trans (h.balanced x hx)
  refine ⟨s, ⟨?_, ?_⟩, entries, fun x => (payoff x).symm.trans (balanced x)⟩
  · obtain ⟨i, hi⟩ := h.exists_survivor
    exact ⟨i, by rwa [entries, List.mem_toFinset]⟩
  · cases target with
    | none => exact ⟨1, zero_lt_one, balanced⟩
    | some f => exact ⟨_, zero_lt_one.trans_le (h.scale rfl), balanced⟩

/-! ## Witnesses -/

theorem payoff_sum (fs : List (Gamble σ)) (x : σ) :
    (Gamble.sum fs).payoff x = (fs.map fun f => f.payoff x).sum := by
  have fold (g : Gamble σ) :
      (fs.foldl (· + ·) g).payoff x = g.payoff x + (fs.map fun f => f.payoff x).sum := by
    induction fs generalizing g with
    | nil => rw [List.foldl_nil, List.map_nil, List.sum_nil, add_zero]
    | cons f fs ih => rw [List.foldl_cons, ih, Gamble.payoff_add, List.map_cons, List.sum_cons, add_assoc]
  exact (fold Gamble.empty).trans (zero_add _)

/-- The weighted sum of a witness is that of the activated slots. -/
theorem payoff_combination_witness (active : List (Cone σ)) (target : Option (Gamble σ)) (p : Row) (x : σ) :
    (witness active target p).combination.payoff x =
      (((slots active).filter (Slot.isActive p)).map (Slot.payoff p x)).sum := by
  rw [Witness.combination, witness, payoff_sum, List.map_flatMap, List.flatMap_map]
  induction (slots active).filter (Slot.isActive p) with
  | nil => rfl
  | cons s rest ih =>
    rw [List.flatMap_cons, List.sum_append, ih, List.map_cons, List.sum_cons]
    congr 1
    rw [Slot.payoff, ← List.zip_swap, List.zip_map_left, List.map_map, List.map_map, List.map_map]
    refine congrArg List.sum (List.map_congr_left fun e _ => ?_)
    exact Gamble.payoff_scale _ _ _

end ConeStrip

/-- The witness has positive weights that sum to a multiple of the target by at least one, and has all
entries of the list that occur in some exact selection, in their order. -/
structure Witness.Exhausts (w : Witness σ) (cones : List (Cone σ)) (target : Option (Gamble σ)) : Prop where
  weights : ∀ c ∈ w.cones, c.2.length = c.1.size ∧ ∀ v ∈ c.2, 0 < v
  combination : ∀ x, w.combination.payoff x = targetPayoff target w.scale x
  scale : 1 ≤ w.scale
  entries : ∃ positions : List Nat, positions.Pairwise (· < ·) ∧
    (∀ i, i ∈ positions ↔ ∃ s : Selection cones, s.Exact target ∧ i ∈ s.entries) ∧
    w.cones.map Prod.fst = pick cones positions

namespace ConeStrip

/-- Positions that are left in some round: those of all exact selections are. -/
structure Remaining (states : SortedSet σ) (cones : List (Cone σ)) (target : Option (Gamble σ))
    (positions : List Nat) : Prop where
  seated : Seated cones positions
  covers : Covers states cones positions target
  keep : ∀ s : Selection cones, s.Exact target → ∀ i ∈ s.entries, i ∈ positions

theorem Remaining.not_exact_of_empty (h : Remaining states cones target positions)
    (empty : (pick cones positions).isEmpty = true) (s : Selection cones) : ¬s.Exact target := by
  intro exact
  obtain ⟨i, hi⟩ := exact.some_entry
  have : coneAt cones i ∈ pick cones positions := List.mem_map_of_mem (h.keep s exact i hi)
  rw [List.isEmpty_iff.1 empty] at this
  exact List.not_mem_nil this

theorem Remaining.not_exact_of_infeasible (h : Remaining states cones target positions)
    (infeasible : ∀ p, ¬RoundPoint (pick cones positions) states target p) (s : Selection cones) :
    ¬s.Exact target := by
  intro exact
  obtain ⟨p, point⟩ := exists_roundPoint exact (h.keep s exact) h.seated.nodup states
  exact infeasible p point

/-- What an optimum activates is left for the next round. -/
theorem Remaining.next (h : Remaining states cones target positions)
    (optimum : Optimum (pick cones positions) states target p) :
    Remaining states cones target
      (survivors p (seats cones positions 0 (rayCount (pick cones positions)))) := by
  have sub := Slot.survivors_sublist p cones positions 0 (rayCount (pick cones positions))
  refine ⟨h.seated.sublist sub, ⟨fun i hi => h.covers.cones i (sub.subset hi), h.covers.target⟩,
    fun s exact i hi => ?_⟩
  exact optimum.survives exact (h.keep s exact) h.seated.nodup hi

theorem Remaining.exhausts (h : Remaining states cones target positions)
    (optimum : Optimum (pick cones positions) states target p)
    (stray : (slots (pick cones positions)).any (Slot.isStray p) = false) :
    (witness (pick cones positions) target p).Exhausts cones target := by
  obtain ⟨s, exact, entries, balanced⟩ := optimum.exists_exact h.seated h.covers stray
  refine ⟨fun c hc => ?_, fun x => ?_, ?_, _, (h.next optimum).seated.sorted,
    fun i => ⟨fun hi => ⟨s, exact, ?_⟩, fun ⟨t, exact, hi⟩ => ?_⟩, ?_⟩
  · obtain ⟨t, ht, rfl⟩ := List.mem_map.1 hc
    obtain ⟨ht, active⟩ := List.mem_filter.1 ht
    refine ⟨(List.length_map _).trans (Slot.length_weights ht), fun v hv => ?_⟩
    obtain ⟨u, hu, rfl⟩ := List.mem_map.1 hv
    have one : Row.entry p t.activation = 1 := beq_iff_eq.1 active
    exact zero_lt_one.trans_le (one ▸ (optimum.holds t ht).covered u hu)
  · have unused : ∀ t ∈ slots (pick cones positions), t.isActive p = false → t.payoff p x = 0 :=
      fun t ht inactive =>
      Slot.payoff_eq_zero_of_unused (Slot.isStray_eq_false_iff.1
        (Bool.eq_false_iff.2 (List.any_eq_false.1 stray t ht)) inactive)
    rw [payoff_combination_witness, Slot.sum_filter_of_zero unused]
    refine (balanced x).trans ?_
    cases target with
    | none => rfl
    | some f => rfl
  · cases target with
    | none => exact le_rfl
    | some f => exact optimum.scale rfl
  · rwa [entries, List.mem_toFinset]
  · exact (h.next optimum).keep t exact i hi
  · rw [← Slot.activeCones_eq_pick, witness, List.map_map]
    rfl

/-! ## The rounds -/

theorem strip_run (solve : LinearProgram → Solution) (states : SortedSet σ) (target : Option (Gamble σ))
    (active : List (Cone σ)) : (strip (m := Id) solve states target active).run =
      if active.isEmpty then .ok none
      else match (solve (program active states target)).optimumOf (program active states target) with
        | .error (.unsolved .inconsistent) => .ok none
        | .error e => .error e
        | .ok s =>
          if (slots active).any (Slot.isStray s.primal) = true then
            (strip (m := Id) solve states target (Slot.activeCones s.primal (slots active))).run
          else .ok (some (witness active target s.primal)) := by
  rw [strip]
  split
  · rfl
  · show (match (solve (program active states target)).optimumOf (program active states target) with
      | .error (.unsolved .inconsistent) => _
      | .error e => _
      | .ok s => _ : Except Error (Option (Witness σ))) = _
    cases (solve (program active states target)).optimumOf (program active states target) with
    | error e => rfl
    | ok s =>
      dsimp only
      split <;> rfl

/-- The rounds of a run, with its result. -/
inductive Run (solve : LinearProgram → Solution) (states : SortedSet σ) (target : Option (Gamble σ)) :
    List (Cone σ) → Except Error (Option (Witness σ)) → Prop
  | empty : Run solve states target [] (.ok none)
  | inconsistent {active : List (Cone σ)} : active ≠ [] →
      (solve (program active states target)).optimumOf (program active states target) =
        .error (.unsolved .inconsistent) → Run solve states target active (.ok none)
  | failed {active : List (Cone σ)} {e : Error} : active ≠ [] → e ≠ .unsolved .inconsistent →
      (solve (program active states target)).optimumOf (program active states target) = .error e →
      Run solve states target active (.error e)
  | done {active : List (Cone σ)} {s : Solution} : active ≠ [] →
      (solve (program active states target)).optimumOf (program active states target) = .ok s →
      (slots active).any (Slot.isStray s.primal) = false →
      Run solve states target active (.ok (some (witness active target s.primal)))
  | next {active : List (Cone σ)} {s : Solution} {r : Except Error (Option (Witness σ))} : active ≠ [] →
      (solve (program active states target)).optimumOf (program active states target) = .ok s →
      (slots active).any (Slot.isStray s.primal) = true →
      Run solve states target (Slot.activeCones s.primal (slots active)) r → Run solve states target active r

/-- The induction is on the number of active cones. -/
theorem run_strip (solve : LinearProgram → Solution) (states : SortedSet σ) (target : Option (Gamble σ))
    (active : List (Cone σ)) :
    Run solve states target active (strip (m := Id) solve states target active).run := by
  induction size : active.length using Nat.strong_induction_on generalizing active with
  | _ n ih =>
    rw [strip_run]
    split
    · rename_i none
      cases List.isEmpty_iff.1 none
      exact .empty
    rename_i some_cone
    rw [List.isEmpty_iff] at some_cone
    split
    · rename_i infeasible
      exact .inconsistent some_cone infeasible
    · rename_i e other solved
      exact .failed some_cone other solved
    · rename_i s solved
      split
      · rename_i stray
        have fewer := Slot.length_activeCones_lt stray
        rw [slots, Slot.length_ofCones, size] at fewer
        exact .next some_cone solved stray (ih _ fewer _ rfl)
      · rename_i stray
        exact .done some_cone solved (Bool.eq_false_iff.2 stray)

theorem Run.eq {solve : LinearProgram → Solution} {r : Except Error (Option (Witness σ))}
    (run : Run solve states target active r) : (strip (m := Id) solve states target active).run = r := by
  induction run with
  | empty => exact (strip_run solve states target []).trans (if_pos rfl)
  | inconsistent some_cone solved => rw [strip_run, if_neg (List.isEmpty_iff.not.2 some_cone), solved]
  | failed some_cone other solved =>
    rw [strip_run, if_neg (List.isEmpty_iff.not.2 some_cone), solved]
    split
    · rename_i inconsistent
      exact absurd (Except.error.inj inconsistent) other
    · rename_i same
      rw [Except.error.inj same]
    · rename_i accepted
      cases accepted
  | done some_cone solved stray =>
    rw [strip_run, if_neg (List.isEmpty_iff.not.2 some_cone), solved]
    exact if_neg (Bool.eq_false_iff.1 stray)
  | next some_cone solved stray _ ih =>
    rw [strip_run, if_neg (List.isEmpty_iff.not.2 some_cone), solved]
    exact (if_pos stray).trans ih

theorem activations_bounded (active : List (Cone σ)) (states : SortedSet σ) (target : Option (Gamble σ)) :
    ∃ bound, ∀ p, (program active states target).Feasible p → sumTerms (activations active) p ≤ bound := by
  refine ⟨((slots active).map fun _ => 1).sum, fun p feasible => ?_⟩
  rw [sumTerms_activations]
  exact List.sum_le_sum fun s hs => ((round_feasible_iff.1 feasible).holds s hs).le_one

/-- What an answer about the cones and the target says. -/
structure Decides (cones : List (Cone σ)) (target : Option (Gamble σ)) (answer : Option (Witness σ)) :
    Prop where
  isSome_iff : answer.isSome = true ↔ ∃ s : Selection cones, s.Exact target
  exhausts : ∀ w, answer = some w → w.Exhausts cones target

theorem decides_none (never : ∀ s : Selection cones, ¬s.Exact target) : Decides cones target none :=
  ⟨⟨fun h => absurd h Bool.false_ne_true, fun ⟨s, exact⟩ => absurd exact (never s)⟩, fun _ h => nomatch h⟩

theorem Remaining.decides_some (h : Remaining states cones target positions)
    (optimum : Optimum (pick cones positions) states target p)
    (stray : (slots (pick cones positions)).any (Slot.isStray p) = false) :
    Decides cones target (some (witness (pick cones positions) target p)) := by
  obtain ⟨s, exact, -, -⟩ := optimum.exists_exact h.seated h.covers stray
  refine ⟨⟨fun _ => ⟨s, exact⟩, fun _ => rfl⟩, fun w same => ?_⟩
  cases same
  exact h.exhausts optimum stray

/-- The rounds from what is left in any round. The induction is on the number of cones. -/
theorem exists_strip (h : Remaining states cones target positions) :
    ∃ limit answer, (∀ maxPivots ≥ limit,
      (strip (m := Id) (Simplex.solve maxPivots) states target (pick cones positions)).run = .ok answer) ∧
      Decides cones target answer := by
  induction left : positions.length using Nat.strong_induction_on generalizing positions with
  | _ n ih =>
    by_cases empty : (pick cones positions).isEmpty = true
    · exact ⟨0, none, fun maxPivots _ => by rw [strip_run, if_pos empty],
        decides_none (h.not_exact_of_empty empty)⟩
    obtain ⟨limit, s, answers, optimal | ⟨inconsistent, infeasible⟩⟩ :=
      (program_maximizes (pick cones positions) states target).exists_answer (activations_bounded _ _ _)
    · have optimum : Optimum (pick cones positions) states target s.primal :=
        ⟨round_feasible_iff.1 optimal.feasible, fun p point => optimal.best p (round_feasible_iff.2 point)⟩
      by_cases stray : (slots (pick cones positions)).any (Slot.isStray s.primal) = true
      · have fewer := Slot.length_activeCones_lt stray
        have next := Slot.activeCones_eq_pick s.primal cones positions 0 (rayCount (pick cones positions))
        rw [slots, next, Slot.length_slots, pick, List.length_map, left] at fewer
        obtain ⟨limit', answer, answers', decides⟩ := ih _ fewer (h.next optimum) rfl
        refine ⟨max limit limit', answer, fun maxPivots le => ?_, decides⟩
        rw [strip_run, if_neg empty, answers maxPivots ((le_max_left _ _).trans le), optimal.accepted]
        dsimp only
        rw [if_pos stray, slots, next]
        exact answers' maxPivots ((le_max_right _ _).trans le)
      · have stray := Bool.eq_false_iff.2 stray
        refine ⟨limit, some (witness (pick cones positions) target s.primal), fun maxPivots le => ?_,
          h.decides_some optimum stray⟩
        rw [strip_run, if_neg empty, answers maxPivots le, optimal.accepted]
        dsimp only
        rw [stray, if_neg Bool.false_ne_true]
    · refine ⟨limit, none, fun maxPivots le => ?_, decides_none (h.not_exact_of_infeasible fun p point =>
        infeasible p (round_feasible_iff.2 point))⟩
      rw [strip_run, if_neg empty, answers maxPivots le, inconsistent]

/-- The positions of the cones that have rays. -/
def nonemptyPositions (cones : List (Cone σ)) : List Nat :=
  (List.range cones.length).filter fun i => !(coneAt cones i).isEmpty

theorem seated_nonemptyPositions (cones : List (Cone σ)) : Seated cones (nonemptyPositions cones) := by
  refine ⟨List.pairwise_lt_range.filter _, fun i hi => ?_, fun i hi => ?_⟩
  · exact List.mem_range.1 (List.mem_filter.1 hi).1
  · simpa using (List.mem_filter.1 hi).2

theorem pick_nonemptyPositions (cones : List (Cone σ)) :
    pick cones (nonemptyPositions cones) = cones.filter fun C => !C.isEmpty := by
  conv_rhs => rw [← pick_range cones, pick, List.filter_map]
  rfl

theorem mem_nonemptyPositions (s : Selection cones) {i : Nat} (hi : i ∈ s.entries) :
    i ∈ nonemptyPositions cones :=
  List.mem_filter.2 ⟨List.mem_range.2 (s.lt_length i hi), by rw [s.nonempty i hi]; rfl⟩

/-- All cones that have rays, and all states where there is a payoff, at the start. -/
theorem remaining_nonempty (cones : List (Cone σ)) (target : Option (Gamble σ)) :
    Remaining (SortedSet.flatMap cones Cone.domain ∪ (target.map Gamble.domain).getD ∅) cones target
      (nonemptyPositions cones) := by
  refine ⟨seated_nonemptyPositions cones, ⟨fun i hi x hx => SortedSet.mem_union.2 (.inl ?_), fun f hf x hx =>
    SortedSet.mem_union.2 (.inr ?_)⟩, fun s _ i hi => mem_nonemptyPositions s hi⟩
  · have lt := (seated_nonemptyPositions cones).lt_length i hi
    exact SortedSet.mem_flatMap.2 ⟨coneAt cones i, coneAt_mem lt, hx⟩
  · rw [hf]
    exact hx

/-- With enough pivots, the answer decides whether some selection is exact. -/
theorem exists_limit_feasible (cones : List (Cone σ)) (target : Option (Gamble σ)) :
    ∃ limit answer, (∀ maxPivots ≥ limit,
        (feasible (m := Id) (Simplex.solve maxPivots) cones target).run = .ok answer) ∧
      Decides cones target answer := by
  obtain ⟨limit, answer, answers, decides⟩ := exists_strip (remaining_nonempty cones target)
  refine ⟨limit, answer, fun maxPivots le => ?_, decides⟩
  rw [feasible, ← pick_nonemptyPositions]
  exact answers maxPivots le

/-- With enough pivots, there is a witness exactly if some selection is exact, and then it has positive
weights that sum to a multiple of the target, and every entry that occurs in an exact selection. -/
theorem exists_feasible (cones : List (Cone σ)) (target : Option (Gamble σ)) :
    ∃ limit answer, (∀ maxPivots ≥ limit,
        (feasible (m := Id) (Simplex.solve maxPivots) cones target).run = .ok answer) ∧
      (answer.isSome = true ↔ ∃ s : Selection cones, s.Exact target) ∧
      ∀ w, answer = some w → w.Exhausts cones target := by
  obtain ⟨limit, answer, answers, decides⟩ := exists_limit_feasible cones target
  exact ⟨limit, answer, answers, decides.isSome_iff, decides.exhausts⟩

end ConeStrip

end Prevision
