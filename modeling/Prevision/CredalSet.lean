import Prevision.MassFunction

/-!
# Credal sets

A credal set holds finitely many probability mass functions, and stands for
all their mixtures. Its lower and upper expectation of a gamble are the least
and the greatest expectation under a member, conditional on the domain of the
gamble.
-/

namespace Prevision

/-- A finite set of probability mass functions. -/
structure CredalSet (σ : Type) [State σ] where
  members : SortedSet (Pmf σ)
  deriving DecidableEq

namespace CredalSet

variable {σ : Type} [State σ]

/-- The credal set without members. -/
def empty : CredalSet σ := ⟨∅⟩

/-- The credal set of a list of members. -/
def ofList (ps : List (Pmf σ)) : CredalSet σ := ⟨.ofList ps⟩

/-- Complete ignorance about an event: all probability on one of its states. -/
def vacuous (event : SortedSet σ) : CredalSet σ := ofList (event.toList.map .dirac)

/-- Adds a member. -/
def insert (K : CredalSet σ) (p : Pmf σ) : CredalSet σ := ⟨K.members.insert p⟩

/-- Removes a member. -/
def erase (K : CredalSet σ) (p : Pmf σ) : CredalSet σ := ⟨K.members.erase p⟩

/-- The members of both. -/
def union (K L : CredalSet σ) : CredalSet σ := ⟨K.members ∪ L.members⟩

/-- The states that some member gives positive probability. -/
def domain (K : CredalSet σ) : SortedSet σ := .flatMap K.members.toList Pmf.domain

/-- The possibility space: the states that some member gives positive probability. -/
def possibilitySpace (K : CredalSet σ) : Except Error (SortedSet σ) :=
  if K.members.isEmpty then .error .emptyCredalSet else .ok K.domain

/-- Every member conditional on an event; complete ignorance about the event if some member gives it
probability zero. -/
def condition (K : CredalSet σ) (event : SortedSet σ) : CredalSet σ :=
  match K.members.toList.mapM (Pmf.condition · event) with
  | .ok ps => ofList ps
  | .error _ => vacuous event

/-- The expectations under the members, in their order. -/
def expectations (K : CredalSet σ) (f : Gamble σ) : Except Error Row :=
  if K.members.isEmpty then .error .emptyCredalSet
  else K.members.toList.mapM (Pmf.expectation · f)

/-- The least expectation of a gamble conditional on its domain. -/
def lowerExpectation (K : CredalSet σ) (f : Gamble σ) : Except Error Rat :=
  return Row.least (← K.expectations f)

/-- The greatest expectation of a gamble conditional on its domain. -/
def upperExpectation (K : CredalSet σ) (f : Gamble σ) : Except Error Rat :=
  return Row.greatest (← K.expectations f)

end CredalSet

end Prevision
