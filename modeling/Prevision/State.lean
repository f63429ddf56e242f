import Prevision.Order.Ordered
import Prevision.Text.Quoted

/-!
# States

A state is an elementary outcome, named by a label of some ordered type. The
order of the labels fixes the order of every listing, so answers do not
depend on how a model was put together.
-/

namespace Prevision

/-- A type of state labels: their order, and how a message shows a label. -/
class State (σ : Type) extends Ordered σ where
  label : σ → String

namespace State

/-- A text is shown between quotes. -/
instance : State String where
  toOrdered := inferInstance
  label := Text.quote

/-- A number is shown in decimal. -/
instance : State Int where
  toOrdered := inferInstance
  label := Int.repr

/-- A pair is shown in parentheses. -/
instance {σ τ : Type} [State σ] [State τ] : State (σ × τ) where
  toOrdered := inferInstance
  label x := "(" ++ label x.1 ++ ", " ++ label x.2 ++ ")"

end State

end Prevision
