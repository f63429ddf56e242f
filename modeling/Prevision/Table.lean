import Prevision.Error
import Prevision.Linear.Row
import Prevision.Numeral.Render
import Prevision.Order.SortedMap
import Prevision.State

/-!
# Tables

A table gives a rational value to each of finitely many states. Read as a
partial function it has no value anywhere else: reading one is an error, and
a sum, difference or product is defined where both operands are.

`payoff` reads a table as zero outside its domain; `payoff_zipEither`,
`payoff_map`, `payoff_restrict` and `payoff_trimmed` say what that makes of
each operation.
-/

namespace Prevision

/-- Finitely many states with a rational value each. -/
abbrev Table (σ : Type) [State σ] := SortedMap σ Rat

namespace Table

variable {σ : Type} [State σ]

/-- The value at a state of the domain. -/
def get (f : Table σ) (x : σ) : Except Error Rat :=
  match f.get? x with
  | some value => .ok value
  | none => .error (.keyMissing (State.label x))

/-- The value at a state, zero outside the domain. -/
def payoff (f : Table σ) (x : σ) : Rat := (f.get? x).getD 0

/-- The states that have a value. -/
def domain (f : Table σ) : SortedSet σ := SortedMap.keys f

/-- The states whose value is not zero. -/
def support (f : Table σ) : SortedSet σ := SortedMap.keys (SortedMap.filter (· != 0) f)

/-- The values that are taken. -/
def range (f : Table σ) : SortedSet Rat := .ofList f.values

/-- The sum of the values. -/
def total (f : Table σ) : Rat := Row.total f.values

/-- Every value times `c`. -/
def scale (c : Rat) (f : Table σ) : Table σ := SortedMap.map (c * ·) f

/-- Every value plus `c`. -/
def shift (c : Rat) (f : Table σ) : Table σ := SortedMap.map (· + c) f

/-- Every value with the opposite sign. -/
def neg (f : Table σ) : Table σ := SortedMap.map (-·) f

/-- Every value over `c`. -/
def div (f : Table σ) (c : Rat) : Except Error (Table σ) :=
  if c = 0 then .error .divisionByZero else .ok (SortedMap.map (· / c) f)

/-- Combines two tables on the states where both have a value. -/
def zipCommon (op : Rat → Rat → Rat) (f g : Table σ) : Table σ :=
  .tabulate (f.domain.filter g.contains) fun x => op (f.payoff x) (g.payoff x)

/-- Combines two tables on the states where one has a value, with zero for the other. -/
def zipEither (op : Rat → Rat → Rat) (f g : Table σ) : Table σ :=
  .tabulate (f.domain ∪ g.domain) fun x => op (f.payoff x) (g.payoff x)

/-- The table on an event, zero where there was no value. -/
def restrict (f : Table σ) (event : SortedSet σ) : Table σ := .tabulate event f.payoff

/-- The table on its support. -/
def trimmed (f : Table σ) : Table σ := SortedMap.filter (· != 0) f

/-- One on an event. -/
def indicator (event : SortedSet σ) : Table σ := .tabulate event fun _ => 1

instance : Add (Table σ) := ⟨zipCommon (· + ·)⟩

instance : Sub (Table σ) := ⟨zipCommon (· - ·)⟩

instance : Mul (Table σ) := ⟨zipCommon (· * ·)⟩

instance : Neg (Table σ) := ⟨neg⟩

/-- The table between braces, a state before its value. -/
def render (f : Table σ) : String :=
  let entries := f.toList.map fun e => State.label e.1 ++ ": " ++ Numeral.render e.2
  "\x7b" ++ String.intercalate ", " entries ++ "\x7d"

theorem values_scale (c : Rat) (f : Table σ) : (f.scale c).values = Row.scale c f.values := by
  simp [scale, SortedMap.values, SortedMap.map, Row.scale]

theorem values_neg (f : Table σ) : f.neg.values = Row.neg f.values := by
  simp [neg, SortedMap.values, SortedMap.map, Row.neg]

theorem values_trimmed (f : Table σ) : f.trimmed.values = f.values.filter (· != 0) := by
  simp only [trimmed, SortedMap.values, SortedMap.filter, List.filter_map]
  rfl

@[simp] theorem payoff_tabulate {s : SortedSet σ} {f : σ → Rat} {x : σ} :
    payoff (.tabulate s f) x = if x ∈ s then f x else 0 := by
  unfold payoff
  rw [SortedMap.get?_tabulate]
  split <;> rfl

@[simp] theorem payoff_restrict {f : Table σ} {event : SortedSet σ} {x : σ} :
    (f.restrict event).payoff x = if x ∈ event then f.payoff x else 0 := payoff_tabulate

@[simp] theorem payoff_trimmed {f : Table σ} {x : σ} : f.trimmed.payoff x = f.payoff x := by
  unfold payoff trimmed
  rw [SortedMap.get?_filter]
  cases f.get? x with
  | none => rfl
  | some v => by_cases h : v = 0 <;> simp [Option.filter, h]

theorem payoff_eq_zero {f : Table σ} {x : σ} (h : x ∉ f.domain) : f.payoff x = 0 := by
  unfold payoff
  cases e : f.get? x with
  | none => rfl
  | some v => exact absurd (SortedMap.mem_keys.2 ⟨v, e⟩) h

@[simp] theorem payoff_zipEither {op : Rat → Rat → Rat} (zero : op 0 0 = 0) {f g : Table σ} {x : σ} :
    (zipEither op f g).payoff x = op (f.payoff x) (g.payoff x) := by
  rw [zipEither, payoff_tabulate]
  split
  · rfl
  · rename_i h
    rw [SortedSet.mem_union, not_or] at h
    rw [payoff_eq_zero h.1, payoff_eq_zero h.2, zero]

theorem payoff_map {op : Rat → Rat} (zero : op 0 = 0) {f : Table σ} {x : σ} :
    payoff (SortedMap.map op f) x = op (f.payoff x) := by
  unfold payoff
  rw [SortedMap.get?_map]
  cases f.get? x with
  | none => exact zero.symm
  | some v => rfl

end Table

end Prevision
