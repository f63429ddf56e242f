import Prevision.Program.Basic

/-!
# Simplex tableaux

A tableau holds equations over nonnegative columns. Each line is solved for
one column, its basic one: that column has coefficient one in the line and
zero in all others, so setting every column that is not basic to zero gives
each basic column the right-hand side of its line.

The standard form of a program has, in this order,

* a column for the positive and then one for the negative part of every
  variable, `x = x⁺ - x⁻`,
* a surplus for every constraint that is no equality, `a · x - s = -b`,
* an artificial column for every constraint, basic at the start.

A constraint whose right-hand side would be negative is taken with the
opposite signs.

`holds_pivot` says that a pivot changes the equations but not their solutions.
-/

namespace Prevision

/-- An equation `entries · columns = rhs`, solved for the column `basic`. -/
structure Tableau.Line where
  basic : Nat
  entries : Row
  rhs : Rat
  deriving DecidableEq

/-- Equations over `columns` nonnegative columns, of which the first `structural` are not
artificial. -/
structure Tableau where
  lines : List Tableau.Line
  columns : Nat
  structural : Nat
  deriving DecidableEq

namespace Tableau

/-- Whether the values of the columns satisfy the equation. -/
def Line.Holds (l : Line) (y : Row) : Prop := Row.dot l.entries y = l.rhs

/-- Whether the values of the columns satisfy all equations. -/
def Holds (t : Tableau) (y : Row) : Prop := ∀ l ∈ t.lines, l.Holds y

/-- The coefficient of a column. -/
def Line.entry (l : Line) (j : Nat) : Rat := Row.entry l.entries j

/-- The line solved for column `j`, which has a coefficient that is not zero. -/
def Line.solvedFor (l : Line) (j : Nat) : Line :=
  let c := (l.entry j)⁻¹
  ⟨j, Row.scale c l.entries, c * l.rhs⟩

/-- The line with column `j` eliminated by `lead`, which is solved for it. -/
def Line.eliminate (l : Line) (j : Nat) (lead : Line) : Line :=
  let c := l.entry j
  if c = 0 then l
  else { l with entries := Row.subMul l.entries c lead.entries, rhs := l.rhs - c * lead.rhs }

/-- The lines of a program's constraints, counted on from constraint `index` and surplus
`surplus`. -/
def standardLines (p : LinearProgram) (surpluses : Nat) : List Row → Nat → Nat → List Line
  | [], _, _ => []
  | row :: rest, index, surplus =>
    let equality := p.equalities.contains index
    let a := row.tail
    let slack := if equality then Row.zero surpluses else Row.neg (Row.unit surpluses surplus)
    let left := a ++ Row.neg a ++ slack
    let right := -Row.entry row 0
    let flip := right < 0
    { basic := 2 * p.variableCount + surpluses + index
      entries := (if flip then Row.neg left else left) ++ Row.unit p.rows.length index
      rhs := if flip then -right else right } ::
      standardLines p surpluses rest (index + 1) (if equality then surplus else surplus + 1)

/-- The standard form of a program, with the artificial columns basic. -/
def standardForm (p : LinearProgram) : Tableau :=
  let surpluses := p.rows.length - p.equalities.size
  let structural := 2 * p.variableCount + surpluses
  { lines := standardLines p surpluses p.rows 0 0
    columns := structural + p.rows.length
    structural }

/-- Solves line `r` for column `j` and eliminates the column from all other lines. -/
def pivot (t : Tableau) (r j : Nat) : Tableau :=
  match t.lines[r]? with
  | none => t
  | some line =>
    let lead := line.solvedFor j
    { t with lines := t.lines.mapIdx fun i l => if i = r then lead else l.eliminate j lead }

/-- The value of a column at the basic solution. -/
def value (t : Tableau) (j : Nat) : Rat :=
  match t.lines.find? (·.basic == j) with
  | some line => line.rhs
  | none => 0

/-- The values of the first `n` variables at the basic solution. -/
def primal (t : Tableau) (n : Nat) : Row :=
  (List.range n).map fun j => t.value j - t.value (n + j)

/-- The sum of the artificial columns at the basic solution. -/
def artificialMass (t : Tableau) : Rat :=
  Row.total ((t.lines.filter fun l => t.structural ≤ l.basic).map Line.rhs)

/-- What a unit of each column adds to the objective `costs` when the basic columns make room for
it. -/
def reducedCosts (t : Tableau) (costs : Row) : Row :=
  t.lines.foldl (fun d l => Row.subMul d (Row.entry costs l.basic) l.entries) costs

theorem Line.holds_solvedFor {l : Line} {j : Nat} (h : l.entry j ≠ 0) {y : Row} :
    (l.solvedFor j).Holds y ↔ l.Holds y := by
  simp only [Holds, solvedFor, Row.dot_scale]
  constructor
  · intro e
    have := congrArg (l.entry j * ·) e
    simpa only [← Rat.mul_assoc, Rat.mul_inv_cancel _ h, Rat.one_mul] using this
  · exact congrArg _

theorem Line.holds_eliminate {l lead : Line} (width : l.entries.length = lead.entries.length)
    {y : Row} (h : lead.Holds y) (j : Nat) : (l.eliminate j lead).Holds y ↔ l.Holds y := by
  unfold eliminate
  simp only
  split
  · rfl
  · simp only [Holds, Row.dot_subMul _ _ width] at h ⊢
    rw [h]
    grind

theorem holds_pivot {t : Tableau} {r j : Nat} {line : Line} (at_r : t.lines[r]? = some line)
    (nonzero : line.entry j ≠ 0) (widths : ∀ l ∈ t.lines, l.entries.length = line.entries.length)
    {y : Row} : (t.pivot r j).Holds y ↔ t.Holds y := by
  have lines_pivot : (t.pivot r j).lines = t.lines.mapIdx fun i l =>
      if i = r then line.solvedFor j else l.eliminate j (line.solvedFor j) := by
    simp only [pivot, at_r]
  have width : (line.solvedFor j).entries.length = line.entries.length := Row.length_scale _ _
  obtain ⟨bound, get_r⟩ := List.getElem?_eq_some_iff.1 at_r
  constructor
  · intro h
    have lead : (line.solvedFor j).Holds y := by
      refine h _ (lines_pivot ▸ List.mem_mapIdx.2 ⟨r, bound, if_pos rfl⟩)
    intro l hl
    obtain ⟨i, hi, rfl⟩ := List.mem_iff_getElem.1 hl
    by_cases same : i = r
    · subst same
      rw [get_r]
      exact (Line.holds_solvedFor nonzero).1 lead
    · refine (Line.holds_eliminate ((widths _ hl).trans width.symm) lead j).1 (h _ ?_)
      exact lines_pivot ▸ List.mem_mapIdx.2 ⟨i, hi, if_neg same⟩
  · intro h l hl
    have lead : (line.solvedFor j).Holds y :=
      (Line.holds_solvedFor nonzero).2 (h _ (List.mem_of_getElem? at_r))
    obtain ⟨i, hi, rfl⟩ := List.mem_mapIdx.1 (lines_pivot ▸ hl)
    split
    · exact lead
    · have mem := List.getElem_mem hi
      exact (Line.holds_eliminate ((widths _ mem).trans width.symm) lead j).2 (h _ mem)

@[simp] theorem length_lines_pivot (t : Tableau) (r j : Nat) :
    (t.pivot r j).lines.length = t.lines.length := by
  unfold pivot
  split <;> simp

@[simp] theorem columns_pivot (t : Tableau) (r j : Nat) : (t.pivot r j).columns = t.columns := by
  unfold pivot
  split <;> rfl

@[simp] theorem structural_pivot (t : Tableau) (r j : Nat) :
    (t.pivot r j).structural = t.structural := by
  unfold pivot
  split <;> rfl

end Tableau

end Prevision
