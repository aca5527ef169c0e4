/-
# TwoLevel.Trace — the course of a minimization as data

A `Trace` holds what every stage of a minimization produced: the implicants after
each round, the selection, the irredundant combinations and the chosen one. It is
what charts and overlays are drawn from. For a constant function only the number
of variables and the minterms are filled in.
-/
import TwoLevel.Cost

namespace TwoLevel

set_option autoImplicit false

/-- What the stages of a minimization produced. -/
structure Trace where
  arity : Arity
  /-- The minterms of the function, ascending. -/
  minterms : List Word
  /-- The implicants present at the start and after every round. -/
  rounds : List (List Implicant) := []
  primes : List Implicant := []
  essential : List Implicant := []
  candidates : List Implicant := []
  /-- The minterms that the essential implicants leave. -/
  uncovered : List Word := []
  /-- The irredundant combinations of candidates, as positions. -/
  combinations : List IndexSet := []
  /-- The positions of the candidates that were chosen. -/
  chosen : IndexSet := IndexSet.empty
  /-- Whether they were chosen greedily. -/
  greedy : Bool := false

namespace Trace

/-- How many rounds merged something. -/
def mergeRounds (t : Trace) : Nat := t.rounds.length - 2

/-- The cost of every combination, in order. -/
def costs (t : Trace) : List Cost :=
  t.combinations.map fun combination => Cost.ofTerms t.arity (combination.pick t.candidates)

end Trace

end TwoLevel
