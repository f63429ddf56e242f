import Prevision.CredalSet
import Prevision.DesirabilitySet
import Prevision.Inference.Query

/-!
# Duality of the two models

A set of desirable gambles and a credal set can say the same. The mass
functions under which no desirable gamble has a negative expectation form a
cone; its extreme rays, normalized, are the members of the credal set. The
gambles without a negative expectation under any member form a cone too,
cut out by the members, and its rays are the desirable gambles. Either way
the answer is closed, so going there and back gives the closure.
-/

namespace Prevision

namespace Duality

variable {σ : Type} [State σ]

/-- A gamble or mass function over some states, after a first entry. -/
def lifted (head : Rat) (payoff : σ → Rat) (states : List σ) : Row := head :: states.map payoff

/-- A row without its first entry, and its negation too if the row is linear; nothing if no other
entry is left. -/
def signedTails (row : Row) (linear : Bool) : List Row :=
  if Row.isZero row.tail then [] else row.tail :: if linear then [Row.neg row.tail] else []

/-- The gambles over some states that the rows of a description stand for. -/
def gambles (states : List σ) (d : Description) : List (Gamble σ) :=
  d.flaggedRows.flatMap fun r => (signedTails r.1 r.2).map fun tail => .ofList (states.zip tail)

/-- The mass functions compatible with desirable gambles, by inequalities. -/
def polar (D : DesirabilitySet σ) : Description :=
  let states := D.domain.toList
  let rays := D.generators.toList.map fun r => lifted 0 r.payoff states
  let axes := (List.range states.length).map fun i => 0 :: Row.unit states.length i
  ⟨.inequalities, rays ++ axes, ∅⟩

/-- The cone of the members of a credal set over some states, by generators. -/
def span (K : CredalSet σ) (states : List σ) : Description :=
  let members := K.members.toList.map fun p => lifted 0 p.probability states
  ⟨.generators, members ++ [1 :: Row.zero states.length], ∅⟩

/-- The convex hull of the members of a credal set, by generators. -/
def hull (K : CredalSet σ) : Description :=
  ⟨.generators, K.members.toList.map fun p => lifted 1 p.probability K.domain.toList, ∅⟩

end Duality

variable {σ : Type} [State σ] {m : Type → Type} [Monad m]

/-- Asks the enumerator for the other form of a description. -/
def Enumerator.converted (E : Enumerator m) (d : Description) (form : Form) :
    Query m Description := do
  Query.ofExcept ((← ExceptT.mk (E.convert d)).expect form)

/-- The closed credal set compatible with desirable gambles. -/
def DesirabilitySet.toCredalSet (E : Enumerator m) (D : DesirabilitySet σ) :
    Query m (CredalSet σ) := do
  let states ← Query.ofExcept D.possibilitySpace
  let d ← E.converted (Duality.polar D) .generators
  Query.ofExcept do
    return .ofList (← (Duality.gambles states.toList d).mapM Pmf.ofGamble)

/-- The closed set of desirable gambles compatible with a credal set, over the given states and those
of the members. A state to which no member gives probability gets its indicator and the opposite
gamble. -/
def CredalSet.toDesirabilitySetOn (E : Enumerator m) (K : CredalSet σ) (space : SortedSet σ) :
    Query m (DesirabilitySet σ) := do
  let states := space ∪ K.domain
  if states.isEmpty then throw .emptyCredalSet
  let d ← E.converted (Duality.span K states.toList) .inequalities
  Query.ofExcept (DesirabilitySet.ofGambles (Duality.gambles states.toList d))

/-- The closed set of desirable gambles compatible with a credal set. -/
def CredalSet.toDesirabilitySet (E : Enumerator m) (K : CredalSet σ) :
    Query m (DesirabilitySet σ) := do
  K.toDesirabilitySetOn E (← Query.ofExcept K.possibilitySpace)

/-- The members at the given positions. -/
def CredalSet.membersAt (K : CredalSet σ) (positions : SortedSet Nat) : List (Pmf σ) :=
  positions.toList.filterMap (K.members.toList[·]?)

/-- Removes the members that are mixtures of others, and says how many were removed. -/
def CredalSet.discardRedundant (E : Enumerator m) (K : CredalSet σ) :
    Query m (CredalSet σ × Nat) :=
  if K.members.isEmpty then return (K, 0)
  else do
    let redundant := K.membersAt (← ExceptT.mk (E.redundantRows (Duality.hull K)))
    return (redundant.foldl erase K, redundant.length)

end Prevision
