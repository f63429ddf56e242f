import Prevision.CredalSet
import Prevision.GambleMap
import Prevision.Program.Basic

/-!
# Interchange documents

How numbers, models and programs are written down for other programs: as a
tree of lists, records, texts and integers. An integer of any size is its
sign and its absolute value in base `2 ^ 32`, least digit first; a rational
is its numerator and denominator; a table is a record with a field for every
state; sets are lists in their order.
-/

namespace Prevision

/-- A tree of lists and records. -/
inductive Document where
  | null
  | integer (z : Int)
  | text (s : String)
  | list (items : List Document)
  | record (fields : List (String × Document))

/-- State labels that can be the name of a field. -/
class Keyed (σ : Type) where
  key : σ → String

instance : Keyed String := ⟨id⟩

instance : Keyed Int := ⟨Int.repr⟩

namespace Document

/-- The digits of a number in base `2 ^ 32`, least digit first. -/
def limbs (n : Nat) : List Nat :=
  if n = 0 then [] else n % 4294967296 :: limbs (n / 4294967296)

example : limbs 4294967297 = [1, 1] ∧ limbs 0 = [] := by decide +kernel

/-- A natural number. -/
def ofNat (n : Nat) : Document := integer (Int.ofNat n)

/-- A list of whatever `f` makes of the items. -/
def ofList {α : Type} (f : α → Document) (items : List α) : Document := list (items.map f)

/-- An integer of any size. -/
def ofInt (z : Int) : Document := list [integer z.sign, ofList ofNat (limbs z.natAbs)]

/-- A rational number. -/
def ofRat (q : Rat) : Document := list [ofInt q.num, ofInt (Int.ofNat q.den)]

/-- A row of rationals. -/
def ofRow (r : Row) : Document := ofList ofRat r

/-- A set of indices. -/
def ofIndices (s : SortedSet Nat) : Document := ofList ofNat s.toList

section Models

variable {σ : Type} [State σ] [Keyed σ]

/-- A table. -/
def ofTable (f : Table σ) : Document := record (f.toList.map fun e => (Keyed.key e.1, ofRat e.2))

/-- A ray, as its gamble. -/
def ofRay (r : Ray σ) : Document := ofTable r.gamble.table

/-- A cone. -/
def ofCone (C : Cone σ) : Document := ofList ofRay C.rays.toList

/-- A set of desirable gambles. -/
def ofDesirabilitySet (D : DesirabilitySet σ) : Document := ofList ofCone D.cones.toList

/-- A credal set. -/
def ofCredalSet (K : CredalSet σ) : Document :=
  ofList (fun p => ofTable p.mass.table) K.members.toList

/-- A linear map. -/
def ofGambleMap (M : GambleMap σ σ) : Document :=
  record (M.images.toList.map fun e => (Keyed.key e.1, ofTable e.2.table))

end Models

/-- The direction of an objective. -/
def ofSense : Sense → Document
  | .maximize => text "Maximize"
  | .minimize => text "Minimize"

/-- An objective. -/
def ofObjective (o : Objective) : Document :=
  record [("sense", ofSense o.sense), ("coefficients", ofRow o.coefficients)]

/-- A linear program. -/
def ofProgram (p : LinearProgram) : Document :=
  record [("rows", ofList ofRow p.rows), ("equalities", ofIndices p.equalities),
    ("objective", (p.objective.map ofObjective).getD null)]

/-- The status of a solution. -/
def ofStatus : Status → Document
  | .optimal => text "Optimal"
  | .inconsistent => text "Inconsistent"
  | .unbounded => text "Unbounded"
  | .undecided => text "Undecided"

/-- A solution. -/
def ofSolution (s : Solution) : Document :=
  record [("status", ofStatus s.status), ("value", (s.value.map ofRat).getD null),
    ("primal", ofRow s.primal)]

/-- The form of a description. -/
def ofForm : Form → Document
  | .inequalities => text "Inequality"
  | .generators => text "Generator"

/-- A description of a polyhedron. -/
def ofDescription (d : Description) : Document :=
  record [("kind", ofForm d.form), ("rows", ofList ofRow d.rows), ("linear", ofIndices d.linear)]

end Document

end Prevision
