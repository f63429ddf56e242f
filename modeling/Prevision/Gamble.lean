import Prevision.Table

/-!
# Gambles

A gamble pays a rational amount in each state. It is given on a finite
domain and pays nothing outside it, so two gambles combine on the union of
their domains. The domain still counts: a gamble is an assessment about the
event that it is given on.

* `payoff_add`, `payoff_sub`, `payoff_mul`, `payoff_neg`, `payoff_scale`: each
  operation works state by state.
* `norm_scale`, `norm_neg`, `norm_trimmed` and `mass_scale`, `mass_trimmed`:
  how norms and masses follow their gambles.
-/

namespace Prevision

/-- A payoff function on finitely many states, zero outside. -/
structure Gamble (σ : Type) [State σ] where
  table : Table σ
  deriving DecidableEq

namespace Gamble

variable {σ τ : Type} [State σ] [State τ]

theorem table_injective {f g : Gamble σ} (h : f.table = g.table) : f = g := by
  cases f; cases g; cases h; rfl

/-- Gambles compare by their tables. -/
instance : Ordered (Gamble σ) := .lift table table_injective

/-- The gamble on no state. -/
def empty : Gamble σ := ⟨∅⟩

instance : Inhabited (Gamble σ) := ⟨empty⟩

/-- The gamble with the given payoffs; of several for one state the last holds. -/
def ofList (payoffs : List (σ × Rat)) : Gamble σ := ⟨.ofList payoffs⟩

/-- One on an event. -/
def indicator (event : SortedSet σ) : Gamble σ := ⟨Table.indicator event⟩

/-- `c` on an event. -/
def constant (event : SortedSet σ) (c : Rat) : Gamble σ := ⟨.tabulate event fun _ => c⟩

/-- The payoff in a state. -/
def payoff (f : Gamble σ) (x : σ) : Rat := f.table.payoff x

/-- The states that the gamble is given on. -/
def domain (f : Gamble σ) : SortedSet σ := f.table.domain

/-- The states with a payoff that is not zero. -/
def support (f : Gamble σ) : SortedSet σ := f.table.support

/-- The payoffs, in the order of their states. -/
def values (f : Gamble σ) : Row := f.table.values

/-- The gamble on another event: dropped outside it, zero where it is new. -/
def restrict (f : Gamble σ) (event : SortedSet σ) : Gamble σ := ⟨f.table.restrict event⟩

/-- The gamble on pairs that looks at the first component only. -/
def extend (f : Gamble σ) (other : SortedSet τ) : Gamble (σ × τ) :=
  .ofList <| f.table.toList.flatMap fun e => other.toList.map fun y => ((e.1, y), e.2)

/-- The least payoff, zero for the empty gamble. -/
def least (f : Gamble σ) : Rat := Row.least f.values

/-- The greatest payoff, zero for the empty gamble. -/
def greatest (f : Gamble σ) : Rat := Row.greatest f.values

/-- The greatest absolute payoff. -/
def norm (f : Gamble σ) : Rat := Row.norm f.values

/-- The sum of the payoffs. -/
def mass (f : Gamble σ) : Rat := f.table.total

/-- Whether no payoff is negative. -/
def isNonnegative (f : Gamble σ) : Bool := f.values.all (0 ≤ ·)

/-- Whether every payoff is zero. -/
def isZero (f : Gamble σ) : Bool := Row.isZero f.values

/-- Every payoff times `c`. -/
def scale (c : Rat) (f : Gamble σ) : Gamble σ := ⟨f.table.scale c⟩

/-- Every payoff on the domain plus `c`. -/
def shift (c : Rat) (f : Gamble σ) : Gamble σ := ⟨f.table.shift c⟩

/-- Every payoff over `c`. -/
def div (f : Gamble σ) (c : Rat) : Except Error (Gamble σ) := (f.table.div c).map mk

/-- The gamble on its support. -/
def trimmed (f : Gamble σ) : Gamble σ := ⟨f.table.trimmed⟩

/-- The gamble over its norm, unless that is zero. -/
def normalized? (f : Gamble σ) : Option (Gamble σ) :=
  if f.norm = 0 then none else some (f.scale f.norm⁻¹)

/-- The gamble over its mass, unless that is zero. -/
def massNormalized? (f : Gamble σ) : Option (Gamble σ) :=
  if f.mass = 0 then none else some (f.scale f.mass⁻¹)

/-- The positive affine image with payoffs from zero to one, unless the gamble is constant. -/
def spread? (f : Gamble σ) : Option (Gamble σ) :=
  let width := f.greatest - f.least
  if width = 0 then none else some ⟨f.table.map fun v => (v - f.least) / width⟩

instance : Add (Gamble σ) := ⟨fun f g => ⟨Table.zipEither (· + ·) f.table g.table⟩⟩

instance : Sub (Gamble σ) := ⟨fun f g => ⟨Table.zipEither (· - ·) f.table g.table⟩⟩

instance : Mul (Gamble σ) := ⟨fun f g => ⟨Table.zipEither (· * ·) f.table g.table⟩⟩

instance : Neg (Gamble σ) := ⟨fun f => ⟨f.table.neg⟩⟩

/-- The sum of a list of gambles, on the union of their domains. -/
def sum (fs : List (Gamble σ)) : Gamble σ := fs.foldl (· + ·) empty

theorem norm_nonneg (f : Gamble σ) : 0 ≤ f.norm := Row.norm_nonneg _

theorem norm_scale {c : Rat} (h : 0 < c) (f : Gamble σ) : (f.scale c).norm = c * f.norm := by
  rw [norm, values, scale, Table.values_scale, Row.norm_scale h]
  rfl

theorem norm_neg (f : Gamble σ) : (-f).norm = f.norm := by
  show Row.norm f.table.neg.values = _
  rw [Table.values_neg, Row.norm_neg]
  rfl

theorem norm_trimmed (f : Gamble σ) : f.trimmed.norm = f.norm := by
  rw [norm, values, trimmed, Table.values_trimmed, Row.norm_filter]
  rfl

theorem mass_scale (c : Rat) (f : Gamble σ) : (f.scale c).mass = c * f.mass := by
  rw [mass, Table.total, scale, Table.values_scale, Row.total_scale]
  rfl

theorem mass_trimmed (f : Gamble σ) : f.trimmed.mass = f.mass := by
  rw [mass, Table.total, trimmed, Table.values_trimmed, Row.total_filter]
  rfl

theorem ne_zero_of_mem_values_trimmed {f : Gamble σ} {v : Rat} (h : v ∈ f.trimmed.values) :
    v ≠ 0 := by
  rw [values, trimmed, Table.values_trimmed] at h
  simpa using (List.mem_filter.1 h).2

@[simp] theorem payoff_add (f g : Gamble σ) (x : σ) : (f + g).payoff x = f.payoff x + g.payoff x :=
  Table.payoff_zipEither (Rat.add_zero 0)

@[simp] theorem payoff_sub (f g : Gamble σ) (x : σ) : (f - g).payoff x = f.payoff x - g.payoff x :=
  Table.payoff_zipEither Rat.sub_self

@[simp] theorem payoff_mul (f g : Gamble σ) (x : σ) : (f * g).payoff x = f.payoff x * g.payoff x :=
  Table.payoff_zipEither (Rat.mul_zero 0)

@[simp] theorem payoff_neg (f : Gamble σ) (x : σ) : (-f).payoff x = -f.payoff x :=
  Table.payoff_map Rat.neg_zero

@[simp] theorem payoff_scale (c : Rat) (f : Gamble σ) (x : σ) :
    (f.scale c).payoff x = c * f.payoff x :=
  Table.payoff_map (Rat.mul_zero c)

end Gamble

end Prevision
