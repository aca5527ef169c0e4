/-
# TwoLevel.Prime.Generation — prime implicants by repeated merging

`generate` starts from the single minterms and merges round after round, up to
and including the first round that merges nothing; what is present then are the
prime implicants. Every merge eliminates a variable, so among `n` variables
`n + 1` rounds always suffice: that number bounds the recursion.
-/
import TwoLevel.Prime.Round

namespace TwoLevel

set_option autoImplicit false

/-- The rounds from `buckets` on, at most `limit` of them. -/
def roundsFrom (n : Arity) : Nat → List (List Implicant) → List Round
  | 0, _ => []
  | limit + 1, buckets =>
      let round := Round.ofBuckets n buckets
      if round.merges.isEmpty then [round] else round :: roundsFrom n limit round.buckets

/-- The course of a generation: the buckets of single minterms, then the rounds. -/
structure Generation where
  start : List (List Implicant)
  rounds : List Round
  deriving DecidableEq, Repr

namespace Generation

/-- The implicants present at the start and after every round. -/
def reports (g : Generation) : List (List Implicant) :=
  g.start.flatten :: g.rounds.map (·.implicants)

/-- What is present after the last round. -/
def primes (g : Generation) : List Implicant := g.reports.getLastD []

end Generation

/-- Generate the prime implicants of the function that is true on `minterms`, a
strictly ascending list of assignments. -/
def generate (n : Arity) (minterms : List Word) : Generation :=
  let start := bucketsByOnes n (minterms.map Implicant.ofMinterm)
  ⟨start, roundsFrom n (n.size + 1) start⟩

end TwoLevel
