import Prevision.Linear.Row
import Prevision.Order.SortedSet

/-!
# Descriptions of polyhedra

A polyhedron is described by rows in one of two forms.

* By inequalities: a row `b :: a` stands for the points `x` with
  `b + a · x ≥ 0`, or `= 0` if the row is linear.
* By generators: a row `1 :: v` is the point `v`, a row `0 :: r` the
  direction `r`, or the whole line through `r` if the row is linear.

`fault?` finds the first reason why rows and indices do not fit together.
-/

namespace Prevision

/-- The two forms of a description. -/
inductive Form where
  | inequalities
  | generators
  deriving DecidableEq

/-- The words for a form. -/
def Form.text : Form → String
  | inequalities => "inequality (H)"
  | generators => "generator (V)"

/-- A polyhedron by inequalities or generators, with the indices of its linear rows. -/
structure Description where
  form : Form
  rows : List Row
  linear : SortedSet Nat
  deriving DecidableEq

namespace Description

/-- Why a description is not well formed. -/
inductive Fault where
  /-- There is no row, or the first row is empty. -/
  | noColumns
  /-- A row has another number of entries than the first. -/
  | rowWidth (index entries expected : Nat)
  /-- A linear index names a row that is not there. -/
  | linearRange (index : Nat)
  deriving DecidableEq

/-- The number of columns, by the first row. -/
def width (d : Description) : Nat := (d.rows.headD []).length

/-- The first fault of a description: its width, else a row, else a linear index. -/
def fault? (d : Description) : Option Fault :=
  if d.width = 0 then some .noColumns
  else
    match d.rows.findIdx? fun row => row.length != d.width with
    | some i => some (.rowWidth i (d.rows.getD i []).length d.width)
    | none => (d.linear.toList.find? fun i => d.rows.length ≤ i).map .linearRange

/-- Every row with whether it is linear. -/
def flaggedRows (d : Description) : List (Row × Bool) :=
  d.rows.zipIdx.map fun r => (r.1, d.linear.contains r.2)

/-- The description of rows followed by linear rows. -/
def ofRows (form : Form) (rows lines : List Row) : Description :=
  ⟨form, rows ++ lines, .ofList ((List.range lines.length).map (rows.length + ·))⟩

end Description

end Prevision
