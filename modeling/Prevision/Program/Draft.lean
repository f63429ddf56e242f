import Prevision.Program.AffineForm

/-!
# Drafts of linear programs

A program can be drawn up constraint by constraint over a fixed number of
variables. A step that names a variable beyond that number is refused, and
so every row of a draft has one width.
-/

namespace Prevision

/-- A program under construction, over a fixed number of variables. -/
structure Draft where
  variableCount : Nat
  program : LinearProgram

namespace Draft

/-- The draft without constraints. -/
def start (variableCount : Nat) : Draft := ⟨variableCount, ⟨[], ∅, none⟩⟩

/-- The row of a form, if it names no variable beyond those of the draft. -/
def row? (d : Draft) (F : AffineForm) : Option Row :=
  if F.isWithin d.variableCount then some (F.toRow d.variableCount) else none

/-- Adds the constraint that the form is at least zero. -/
def atLeastZero? (d : Draft) (F : AffineForm) : Option Draft := do
  let row ← d.row? F
  return { d with program := { d.program with rows := d.program.rows ++ [row] } }

/-- Adds the constraint that the form is zero. -/
def equalZero? (d : Draft) (F : AffineForm) : Option Draft := do
  let row ← d.row? F
  return { d with program := { d.program with
    rows := d.program.rows ++ [row]
    equalities := d.program.equalities.insert d.program.rows.length } }

/-- Sets the objective, a form without constant. -/
def optimize? (d : Draft) (sense : Sense) (terms : List (Nat × Rat)) : Option Draft := do
  let row ← d.row? ⟨0, terms⟩
  return { d with program := { d.program with objective := some ⟨sense, row⟩ } }

end Draft

end Prevision
