import Prevision.Error
import Prevision.Polyhedron.Basic

/-!
# Enumerating the generators of a cone

The double description method finds the generators of the cone of all `y`
with `c · y ≥ 0` for some constraints `c` and `c · y = 0` for others. It takes
the constraints one at a time and keeps, for the cone cut out so far, a basis
of the lines that lie in it and its extreme rays beside these. Every ray comes
with the constraints that it meets with equality, by index.

A constraint that is not zero on every line takes a line out: all else is
moved along it into the plane of the constraint, and the line itself, on the
positive side, becomes a ray. Otherwise the constraint keeps the rays on its
positive side, drops those on its negative side, and for every adjacent pair
of one and the other adds the ray where the plane meets the face between them.
Two rays are adjacent when no third meets all the constraints that both meet.
-/

namespace Prevision

/-- An extreme ray with the constraints that it meets with equality, in increasing order. -/
structure ExtremeRay where
  vector : Row
  tight : List Nat
  deriving DecidableEq

/-- The generators of the cone that the constraints processed so far cut out. -/
structure Enumeration where
  constraints : List Row
  lines : List Row
  rays : List ExtremeRay
  deriving DecidableEq

namespace Enumeration

/-- The whole space: a line along every axis, and no constraint. -/
def start (dimension : Nat) : Enumeration :=
  ⟨[], (List.range dimension).map (Row.unit dimension), []⟩

/-- `v` moved along `lead`, which is not in the plane of the constraint `h`, into that plane. -/
def intoPlane (h lead v : Row) : Row := Row.subMul v (Row.dot h v / Row.dot h lead) lead

/-- The direction of `line` on the positive side of the constraint `h`. -/
def oriented (h line : Row) : Row := if Row.dot h line < 0 then Row.neg line else line

/-- Adds a constraint that is not zero on the line `lead`, which the other lines do not include. -/
def splitLine (e : Enumeration) (h : Row) (equality : Bool) (lead : Row) (others : List Row) :
    Enumeration :=
  let k := e.constraints.length
  let lead := oriented h lead
  let moved := e.rays.map fun r =>
    { vector := Row.normalized (intoPlane h lead r.vector), tight := r.tight ++ [k] }
  { constraints := e.constraints ++ [h]
    lines := others.map (intoPlane h lead)
    rays := if equality then moved else moved ++ [⟨Row.normalized lead, List.range k⟩] }

/-- Whether no third ray meets all the constraints that the rays at two positions both meet, and
these are at least `required` in number. -/
def areAdjacent (rays : List ExtremeRay) (a b : Nat × ExtremeRay) (required : Nat) : Bool :=
  let common := a.2.tight.filter b.2.tight.contains
  required ≤ common.length &&
    rays.zipIdx.all fun r =>
      r.2 == a.1 || r.2 == b.1 || !common.all r.1.tight.contains

/-- Where the face between a ray `p` on the positive side of the constraint `h` and a ray `n` on its
negative side meets its plane. -/
def crossing (h p n : Row) : Row :=
  Row.normalized (Row.subMul (Row.scale (Row.dot h p) n) (Row.dot h n) p)

/-- The rays created between the two sides of the constraint `h`, the last of `constraints`. -/
def crossings (rays : List ExtremeRay) (constraints : List Row) (h : Row) (required : Nat) :
    List ExtremeRay :=
  let numbered := rays.zipIdx.map fun r => (r.2, r.1)
  let positive := numbered.filter fun r => 0 < Row.dot h r.2.vector
  let negative := numbered.filter fun r => Row.dot h r.2.vector < 0
  positive.flatMap fun p =>
    (negative.filter fun n => areAdjacent rays p n required).map fun n =>
      let v := crossing h p.2.vector n.2.vector
      ⟨v, (constraints.zipIdx.filter fun c => Row.dot c.1 v == 0).map Prod.snd⟩

/-- The rays that stay: those in the plane of constraint number `k`, which they now meet, and,
unless it is an equality, those on its positive side. -/
def kept (rays : List ExtremeRay) (h : Row) (k : Nat) (equality : Bool) : List ExtremeRay :=
  rays.filterMap fun r =>
    let value := Row.dot h r.vector
    if value = 0 then some { r with tight := r.tight ++ [k] }
    else if 0 < value && !equality then some r
    else none

/-- Appends a ray unless its vector is there already. -/
def addNew (rays : List ExtremeRay) (r : ExtremeRay) : List ExtremeRay :=
  if rays.any fun other => other.vector == r.vector then rays else rays ++ [r]

/-- Adds a constraint that is zero on every line. -/
def splitRays (e : Enumeration) (dimension : Nat) (h : Row) (equality : Bool) : Enumeration :=
  let constraints := e.constraints ++ [h]
  let created := crossings e.rays constraints h (dimension - (e.lines.length + 2))
  { constraints
    lines := e.lines
    rays := created.foldl addNew (kept e.rays h e.constraints.length equality) }

/-- Adds a constraint. -/
def add (e : Enumeration) (dimension : Nat) (h : Row) (equality : Bool) : Enumeration :=
  match e.lines.findIdx? fun line => Row.dot h line != 0 with
  | some i => e.splitLine h equality (e.lines.getD i []) (e.lines.eraseIdx i)
  | none => e.splitRays dimension h equality

/-- Adds constraints in turn, each with whether it is an equality, and stops with an error when more
than `maxRays` rays are alive. -/
def addAll (maxRays dimension : Nat) :
    List (Row × Bool) → Enumeration → Except Error Enumeration
  | [], e => .ok e
  | (h, equality) :: rest, e =>
    let next := e.add dimension h equality
    if maxRays < next.rays.length then .error (.enumerationLimit maxRays)
    else addAll maxRays dimension rest next

/-- Rays and lines that generate a cone. -/
structure Generators where
  rays : List Row
  lines : List Row
  deriving DecidableEq

/-- The generators of the cone that the constraints cut out of the space. -/
def generators (maxRays dimension : Nat) (constraints : List (Row × Bool)) :
    Except Error Generators := do
  let e ← addAll maxRays dimension constraints (start dimension)
  return ⟨e.rays.map ExtremeRay.vector, e.lines.map Row.normalized⟩

end Enumeration

end Prevision
