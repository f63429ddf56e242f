import Mathlib.Algebra.BigOperators.Group.List.Lemmas
import Mathlib.Data.List.Nodup
import Prevision.Inference.Activation
import Prevision.Proofs.Inference.Selection
import Prevision.Proofs.Linear.Entries
import Prevision.Proofs.Program.Forms

/-!
# Weights and activations in a linear program

The active cones of a round are the cones at some positions of the list at
hand. `seats` pairs each of these positions with the slot of its cone, so that
a point of the program can be compared with weights for the entries of the
list.

* `constraints_nonneg_iff`: what the constraints of a slot say;
* `Matches.totalPayoff_eq`: where a point has the weights of the entries, its
  weighted sum is theirs;
* `matches_weightRow`, `exists_matches`: weights as variables of a point, and back.
-/

namespace Prevision

open AffineForm (sumTerms)

variable {σ : Type} [State σ]

/-- The cones at some positions of a list. -/
def pick (cones : List (Cone σ)) (positions : List Nat) : List (Cone σ) := positions.map (coneAt cones)

theorem coneAt_mem {cones : List (Cone σ)} {i : Nat} (h : i < cones.length) : coneAt cones i ∈ cones := by
  rw [coneAt, List.getD_eq_getElem _ _ h]
  exact List.getElem_mem h

theorem pick_range (cones : List (Cone σ)) : pick cones (List.range cones.length) = cones := by
  refine List.ext_getElem (by rw [pick, List.length_map, List.length_range]) fun i _ hi => ?_
  simp only [pick, List.getElem_map, List.getElem_range, coneAt, List.getD_eq_getElem _ _ hi]

namespace Slot

/-- The weighted sum of the rays of the cone, with the weights that a point gives. -/
def payoff (p : Row) (x : σ) (s : Slot σ) : Rat :=
  ((s.weights.zip s.cone.rays.toList).map fun e => Row.entry p e.1 * e.2.payoff x).sum

/-- The weighted sum over all slots. -/
def totalPayoff (p : Row) (slots : List (Slot σ)) (x : σ) : Rat := (slots.map (payoff p x)).sum

/-- The constraints of the slot: no weight is below the activation, which lies from zero to one. -/
structure Holds (p : Row) (s : Slot σ) : Prop where
  nonneg : 0 ≤ Row.entry p s.activation
  le_one : Row.entry p s.activation ≤ 1
  weights : ∀ v ∈ s.weights, 0 ≤ Row.entry p v
  covered : ∀ v ∈ s.weights, Row.entry p s.activation ≤ Row.entry p v

/-- Every weight of the slot is positive. -/
def Covered (q : Row) (s : Slot σ) : Prop := ∀ v ∈ s.weights, 0 < Row.entry q v

theorem sumTerms_payoffTerms (sign : Rat) (x : σ) (s : Slot σ) (p : Row) :
    sumTerms (s.payoffTerms sign x) p = sign * s.payoff p x := by
  rw [payoffTerms, payoff, sumTerms, List.map_map, ← List.sum_map_mul_left]
  refine congrArg List.sum (List.map_congr_left fun e _ => ?_)
  show sign * e.2.payoff x * Row.entry p e.1 = _
  ring

theorem sumTerms_flatMap_payoffTerms (sign : Rat) (x : σ) (slots : List (Slot σ)) (p : Row) :
    sumTerms (slots.flatMap (payoffTerms sign x)) p = sign * totalPayoff p slots x := by
  rw [AffineForm.sumTerms_flatMap, totalPayoff, ← List.sum_map_mul_left]
  exact congrArg List.sum (List.map_congr_left fun s _ => sumTerms_payoffTerms sign x s p)

theorem constraints_nonneg_iff {s : Slot σ} {p : Row} :
    (∀ F ∈ s.constraints, 0 ≤ F.value p) ↔ s.Holds p := by
  have value (c a b : Rat) (v w : Nat) : (⟨c, [(v, a), (w, b)]⟩ : AffineForm).value p =
      c + (a * Row.entry p v + b * Row.entry p w) := by
    rw [AffineForm.value_eq, AffineForm.sumTerms_cons, AffineForm.sumTerms_cons,
      AffineForm.sumTerms_nil, add_zero]
  simp only [constraints, List.forall_mem_append, List.forall_mem_cons, List.not_mem_nil,
    false_imp_iff, implies_true,
    and_true, List.forall_mem_flatMap, value, AffineForm.value_single, zero_add, one_mul, neg_mul]
  constructor
  · rintro ⟨⟨nonneg, le_one⟩, weights⟩
    exact ⟨nonneg, by linarith, fun v hv => (weights v hv).1, fun v hv => by linarith [(weights v hv).2]⟩
  · intro h
    exact ⟨⟨h.nonneg, by linarith [h.le_one]⟩, fun v hv => ⟨h.weights v hv, by linarith [h.covered v hv]⟩⟩

theorem flatMap_constraints_nonneg_iff {slots : List (Slot σ)} {p : Row} :
    (∀ F ∈ slots.flatMap constraints, 0 ≤ F.value p) ↔ ∀ s ∈ slots, s.Holds p := by
  simp only [List.forall_mem_flatMap, constraints_nonneg_iff]

theorem payoffTerms_within {s : Slot σ} {n : Nat} (weights : ∀ v ∈ s.weights, v < n) (sign : Rat) (x : σ) :
    ∀ t ∈ s.payoffTerms sign x, t.1 < n := by
  intro t ht
  obtain ⟨e, he, rfl⟩ := List.mem_map.1 ht
  exact weights e.1 (List.of_mem_zip he).1

theorem constraints_within {s : Slot σ} {n : Nat} (weights : ∀ v ∈ s.weights, v < n)
    (activation : s.activation < n) : ∀ F ∈ s.constraints, F.isWithin n = true := by
  intro F hF
  rw [AffineForm.isWithin_iff]
  simp only [constraints, List.mem_append, List.mem_cons, List.not_mem_nil, or_false, List.mem_flatMap] at hF
  rcases hF with (rfl | rfl) | ⟨v, hv, rfl | rfl⟩
  · simpa using activation
  · simpa using activation
  · simpa using weights v hv
  · simpa using ⟨weights v hv, activation⟩

/-! ## Where the variables stand -/

theorem map_activation_ofCones (A : List (Cone σ)) (w a : Nat) :
    (ofCones A w a).map activation = List.range' a A.length := by
  induction A generalizing w a with
  | nil => rfl
  | cons C rest ih =>
    rw [ofCones, List.map_cons, ih, List.length_cons, List.range'_succ]

theorem activation_mem {A : List (Cone σ)} {w a : Nat} {s : Slot σ} (hs : s ∈ ofCones A w a) :
    a ≤ s.activation ∧ s.activation < a + A.length := by
  have : s.activation ∈ List.range' a A.length := by
    rw [← map_activation_ofCones A w a]
    exact List.mem_map_of_mem hs
  rwa [List.mem_range'_1] at this

theorem eq_of_activation_eq {A : List (Cone σ)} {w a : Nat} {s t : Slot σ} (hs : s ∈ ofCones A w a)
    (ht : t ∈ ofCones A w a) (same : s.activation = t.activation) : s = t := by
  have nodup : ((ofCones A w a).map activation).Nodup := by
    rw [map_activation_ofCones]
    exact List.nodup_range'
  exact List.inj_on_of_nodup_map nodup hs ht same

theorem length_weights {A : List (Cone σ)} {w a : Nat} {s : Slot σ} (hs : s ∈ ofCones A w a) :
    s.weights.length = s.cone.rays.toList.length := by
  induction A generalizing w a with
  | nil => exact absurd hs List.not_mem_nil
  | cons C rest ih =>
    rcases List.mem_cons.1 hs with rfl | hs
    · exact List.length_range'
    · exact ih hs

theorem weight_mem {A : List (Cone σ)} {w a v : Nat} {s : Slot σ} (hs : s ∈ ofCones A w a)
    (hv : v ∈ s.weights) : w ≤ v ∧ v < w + rayCount A := by
  induction A generalizing w a with
  | nil => exact absurd hs List.not_mem_nil
  | cons C rest ih =>
    rw [rayCount]
    rcases List.mem_cons.1 hs with rfl | hs
    · have := List.mem_range'_1.1 hv
      omega
    · have := ih hs
      omega

/-! ## Seats -/

section Seats

variable {cones : List (Cone σ)} {positions : List Nat} {w a : Nat} {p q : Row} {e : Nat × Slot σ}
  {weight : Nat → Ray σ → Rat}

/-- Each position with the slot of its cone. -/
def seats (cones : List (Cone σ)) (positions : List Nat) (w a : Nat) : List (Nat × Slot σ) :=
  positions.zip (ofCones (pick cones positions) w a)

/-- The positions whose cones a point activates. -/
def survivors (p : Row) (seats : List (Nat × Slot σ)) : List Nat :=
  (seats.filter fun e => e.2.isActive p).map Prod.fst

/-- The point has the weights of the entries. -/
def Matches (p : Row) (weight : Nat → Ray σ → Rat) (seats : List (Nat × Slot σ)) : Prop :=
  ∀ e ∈ seats, ∀ v ∈ e.2.weights.zip e.2.cone.rays.toList, Row.entry p v.1 = weight e.1 v.2

theorem seats_cons (i : Nat) (rest : List Nat) : seats cones (i :: rest) w a =
    (i, ⟨coneAt cones i, List.range' w (coneAt cones i).size, a⟩) ::
      seats cones rest (w + (coneAt cones i).size) (a + 1) := rfl

theorem length_slots : (ofCones (pick cones positions) w a).length = positions.length := by
  rw [length_ofCones, pick, List.length_map]

theorem map_snd_seats (cones : List (Cone σ)) (positions : List Nat) (w a : Nat) :
    (seats cones positions w a).map Prod.snd = ofCones (pick cones positions) w a :=
  List.map_snd_zip length_slots.le

theorem map_fst_seats (cones : List (Cone σ)) (positions : List Nat) (w a : Nat) :
    (seats cones positions w a).map Prod.fst = positions :=
  List.map_fst_zip length_slots.ge

theorem slot_mem (he : e ∈ seats cones positions w a) : e.2 ∈ ofCones (pick cones positions) w a := by
  rw [← map_snd_seats cones positions w a]
  exact List.mem_map_of_mem he

theorem position_mem (he : e ∈ seats cones positions w a) : e.1 ∈ positions := by
  rw [← map_fst_seats cones positions w a]
  exact List.mem_map_of_mem he

theorem exists_seat {s : Slot σ} (hs : s ∈ ofCones (pick cones positions) w a) :
    ∃ i, (i, s) ∈ seats cones positions w a := by
  rw [← map_snd_seats cones positions w a] at hs
  obtain ⟨⟨i, s⟩, he, rfl⟩ := List.mem_map.1 hs
  exact ⟨i, he⟩

theorem exists_seat_of_position (cones : List (Cone σ)) {i : Nat} (hi : i ∈ positions) (w a : Nat) :
    ∃ s, (i, s) ∈ seats cones positions w a := by
  rw [← map_fst_seats cones positions w a] at hi
  obtain ⟨⟨i, s⟩, he, rfl⟩ := List.mem_map.1 hi
  exact ⟨s, he⟩

theorem cone_eq (he : e ∈ seats cones positions w a) : e.2.cone = coneAt cones e.1 := by
  induction positions generalizing w a with
  | nil => exact absurd he List.not_mem_nil
  | cons i rest ih =>
    rw [seats_cons] at he
    rcases List.mem_cons.1 he with rfl | he
    · rfl
    · exact ih he

theorem Matches.exists_ray (h : Matches p weight (seats cones positions w a))
    (he : e ∈ seats cones positions w a) {v : Nat} (hv : v ∈ e.2.weights) :
    ∃ r ∈ (coneAt cones e.1).rays, Row.entry p v = weight e.1 r := by
  rw [← List.map_fst_zip (length_weights (slot_mem he)).le] at hv
  obtain ⟨⟨v, r⟩, pair, rfl⟩ := List.mem_map.1 hv
  rw [← cone_eq he]
  exact ⟨r, (List.of_mem_zip pair).2, h e he _ pair⟩

theorem Matches.exists_variable (h : Matches p weight (seats cones positions w a))
    (he : e ∈ seats cones positions w a) {r : Ray σ} (hr : r ∈ (coneAt cones e.1).rays) :
    ∃ v ∈ e.2.weights, Row.entry p v = weight e.1 r := by
  rw [← cone_eq he, ← SortedSet.mem_toList, ← List.map_snd_zip (length_weights (slot_mem he)).ge] at hr
  obtain ⟨⟨v, r⟩, pair, rfl⟩ := List.mem_map.1 hr
  exact ⟨v, (List.of_mem_zip pair).1, h e he _ pair⟩

/-- Where the point has the weights of the entries, a slot has the payoff of its entry. -/
theorem Matches.payoff_eq (h : Matches p weight (seats cones positions w a))
    (he : e ∈ seats cones positions w a) (x : σ) :
    e.2.payoff p x = (coneAt cones e.1).payoff (weight e.1) x := by
  have rays : (e.2.weights.zip e.2.cone.rays.toList).map Prod.snd = e.2.cone.rays.toList :=
    List.map_snd_zip (length_weights (slot_mem he)).ge
  rw [← cone_eq he, Cone.payoff, ← rays, List.map_map, payoff]
  refine congrArg List.sum (List.map_congr_left fun v hv => ?_)
  rw [h e he v hv]
  rfl

theorem Matches.totalPayoff_eq (h : Matches p weight (seats cones positions w a)) (x : σ) :
    totalPayoff p (ofCones (pick cones positions) w a) x =
      (positions.map fun i => (coneAt cones i).payoff (weight i) x).sum := by
  rw [totalPayoff, ← map_snd_seats cones positions w a, List.map_map]
  conv_rhs => rw [← map_fst_seats cones positions w a, List.map_map]
  exact congrArg List.sum (List.map_congr_left fun e he => h.payoff_eq he x)

/-- The weights of the entries at some positions, one after the other. -/
def weightRow (cones : List (Cone σ)) (weight : Nat → Ray σ → Rat) (positions : List Nat) : Row :=
  positions.flatMap fun i => (coneAt cones i).rays.toList.map (weight i)

theorem length_weightRow (cones : List (Cone σ)) (weight : Nat → Ray σ → Rat) (positions : List Nat) :
    (weightRow cones weight positions).length = rayCount (pick cones positions) := by
  induction positions with
  | nil => rfl
  | cons i rest ih =>
    rw [weightRow, List.flatMap_cons, List.length_append, List.length_map, pick, List.map_cons, rayCount]
    exact congrArg (_ + ·) ih

theorem entry_of_mem_zip_range' {f : Ray σ → Rat} {rays : List (Ray σ)} {before after : Row} {v : Nat × Ray σ}
    (hv : v ∈ (List.range' before.length rays.length).zip rays) :
    Row.entry (before ++ (rays.map f ++ after)) v.1 = f v.2 := by
  obtain ⟨j, hj, rfl⟩ := List.mem_iff_getElem.1 hv
  have lt : j < rays.length := by
    rw [List.length_zip, List.length_range'] at hj
    omega
  rw [List.getElem_zip, List.getElem_range', one_mul, Row.entry_append_right (Nat.le_add_right _ _),
    Nat.add_sub_cancel_left, Row.entry_append_left (by rwa [List.length_map]),
    Row.entry_eq_getElem (by rwa [List.length_map]), List.getElem_map]

theorem matches_weightRow_append (cones : List (Cone σ)) (weight : Nat → Ray σ → Rat) (positions : List Nat)
    (before after : Row) (a : Nat) : Matches (before ++ (weightRow cones weight positions ++ after)) weight
      (seats cones positions before.length a) := by
  induction positions generalizing before a with
  | nil => exact fun e he => absurd he List.not_mem_nil
  | cons i rest ih =>
    intro e he v hv
    rw [weightRow, List.flatMap_cons, List.append_assoc]
    rw [seats_cons] at he
    rcases List.mem_cons.1 he with rfl | he
    · exact entry_of_mem_zip_range' hv
    · have later := ih (before ++ (coneAt cones i).rays.toList.map (weight i)) (a + 1)
      rw [List.length_append, List.length_map, List.append_assoc] at later
      exact later e he v hv

/-- Weights as the first variables of a point. -/
theorem matches_weightRow (cones : List (Cone σ)) (weight : Nat → Ray σ → Rat) (positions : List Nat)
    (after : Row) (a : Nat) :
    Matches (weightRow cones weight positions ++ after) weight (seats cones positions 0 a) :=
  matches_weightRow_append cones weight positions [] after a

/-- The weights that a point gives to the entries. -/
theorem exists_matches (cones : List (Cone σ)) {positions : List Nat} (nodup : positions.Nodup) (p : Row)
    (w a : Nat) : ∃ weight, Matches p weight (seats cones positions w a) := by
  classical
  induction positions generalizing w a with
  | nil => exact ⟨fun _ _ => 0, fun e he => absurd he List.not_mem_nil⟩
  | cons i rest ih =>
    obtain ⟨out, nodup⟩ := List.nodup_cons.1 nodup
    obtain ⟨weight, matched⟩ := ih nodup (w + (coneAt cones i).size) (a + 1)
    refine ⟨Function.update weight i fun r => Row.entry p (w + (coneAt cones i).rays.toList.idxOf r),
      fun e he v hv => ?_⟩
    rw [seats_cons] at he
    rcases List.mem_cons.1 he with rfl | he
    · obtain ⟨j, hj, rfl⟩ := List.mem_iff_getElem.1 hv
      rw [Function.update_self, List.getElem_zip, List.getElem_range', one_mul,
        (coneAt cones i).rays.nodup.idxOf_getElem]
    · have apart : e.1 ≠ i := fun same => out (same ▸ position_mem he)
      rw [Function.update_of_ne apart]
      exact matched e he v hv

end Seats

end Slot

end Prevision
