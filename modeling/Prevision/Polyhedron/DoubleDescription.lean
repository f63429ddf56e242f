import Prevision.Linear.Rank
import Prevision.Polyhedron.Enumeration

/-!
# From one description to the other

A description by inequalities turns into one by generators and back. Both
ways enumerate the generators of a cone.

* Inequalities describe a polyhedron as the slice at `t = 1` of a cone in the
  space with one more coordinate `t ≥ 0`, the first. Its rays are brought to
  that slice if they meet it, and are directions if they do not. If none
  meets it, no point satisfies the inequalities and no row is left.
* Generators span a cone; the inequalities valid on it are the cone dual to
  it, and the generators of that dual are the inequalities sought.

`redundantRows` finds the rows of a description that define no facet of
their cone, and those that define one which an earlier row defines.
-/

namespace Prevision

namespace DoubleDescription

/-- The number of rays allowed where nothing else is said. -/
def defaultMaxRays : Nat := 1000000

/-- The rows of a description as constraints of a cone; inequalities come with `t ≥ 0`. -/
def constraints (d : Description) : List (Row × Bool) :=
  match d.form with
  | .inequalities => d.flaggedRows ++ [(Row.unit d.width 0, false)]
  | .generators => d.flaggedRows

/-- A ray of the cone over a polyhedron, as a point of the polyhedron if it meets it. -/
def atHeightOne (ray : Row) : Row :=
  if Row.entry ray 0 = 0 then ray else Row.scale (Row.entry ray 0)⁻¹ ray

/-- The polyhedron over which a cone in the half space `t ≥ 0` lies, by generators. -/
def slice (g : Enumeration.Generators) : Description :=
  if g.rays.any fun ray => Row.entry ray 0 != 0 then
    .ofRows .generators (g.rays.map atHeightOne) g.lines
  else .ofRows .generators [] []

/-- The description in the other form, of one that has no fault. -/
def convertSound (maxRays : Nat) (d : Description) : Except Error Description := do
  let g ← Enumeration.generators maxRays d.width (constraints d)
  match d.form with
  | .inequalities => return slice g
  | .generators => return .ofRows .inequalities g.rays g.lines

/-- The description in the other form. -/
def convert (maxRays : Nat) (d : Description) : Except Error Description :=
  match d.fault? with
  | some fault => .error (.malformedDescription fault)
  | none => convertSound maxRays d

/-- The positions of the rays that meet a constraint with equality. -/
def tightRays (rays : List Row) (h : Row) : List Nat :=
  (rays.zipIdx.filter fun r => Row.dot h r.1 == 0).map Prod.snd

/-- Whether the rays at some positions, with the lines, span one dimension less than all of them. -/
def spansFacet (g : Enumeration.Generators) (positions : List Nat) : Bool :=
  Row.rank (positions.map (g.rays.getD · []) ++ g.lines) + 1 == Row.rank (g.rays ++ g.lines)

/-- The indices, from `index` on, of the rows that define no facet or one of those in `seen`. -/
def scanRows (g : Enumeration.Generators) :
    List (Row × Bool) → Nat → List (List Nat) → List Nat
  | [], _, _ => []
  | (_, true) :: rest, index, seen => scanRows g rest (index + 1) seen
  | (row, false) :: rest, index, seen =>
    let tight := tightRays g.rays row
    if spansFacet g tight && !seen.contains tight then scanRows g rest (index + 1) (tight :: seen)
    else index :: scanRows g rest (index + 1) seen

/-- The indices of the rows that the description can do without. -/
def redundantRows (maxRays : Nat) (d : Description) : Except Error (SortedSet Nat) :=
  match d.fault? with
  | some fault => .error (.malformedDescription fault)
  | none => do
    let g ← Enumeration.generators maxRays d.width (constraints d)
    return .ofList (scanRows g d.flaggedRows 0 [])

end DoubleDescription

end Prevision
