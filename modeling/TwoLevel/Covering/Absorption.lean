/-
# TwoLevel.Covering.Absorption — the absorption law

`X + X Y = X`: in a sum of products of positive literals, a product that contains
another one is superfluous. Of a list of sets those are kept that contain no other
set of the list, a repeated set at its first position.

`absorbBySize` visits the positions of the list, those of smaller sets first, and
flags a position unless one flagged before holds a subset of the set there; the
sets at the flagged positions are kept, in their order. `absorb` is what the
covering uses. It gathers the first occurrences together with the tree of their
members, and keeps those that contain no smaller set of the tree; sizes decide what
is smaller, for a set of fewer members within another one is a strict subset. Both
keep the same sets (`TwoLevel.Proofs.Sifting`).
-/
import TwoLevel.Covering.Paths

namespace TwoLevel

set_option autoImplicit false

namespace Covering

/-! ## Smaller sets first -/

/-- The set at a position of a list. -/
def setAt (sets : List IndexSet) (i : Nat) : IndexSet := sets.getD i IndexSet.empty

/-- The positions of a list, those of smaller sets first and of sets of one size in order. -/
def positionsBySize (sets : List IndexSet) : List Nat :=
  (List.range sets.length).mergeSort fun i j => (setAt sets i).size ≤ (setAt sets j).size

/-- What a pass over positions has decided so far. -/
structure Sifting where
  /-- For every position whether it is kept. -/
  keep : List Bool
  /-- The positions kept, in the order of the visits. -/
  survivors : List Nat

namespace Sifting

def start (length : Nat) : Sifting := ⟨List.replicate length false, []⟩

/-- Keep a position, unless a survivor holds a subset of the set there. -/
def visit (sets : List IndexSet) (pass : Sifting) (i : Nat) : Sifting :=
  if pass.survivors.any fun j => (setAt sets j).isSubset (setAt sets i) then pass
  else ⟨pass.keep.set i true, pass.survivors ++ [i]⟩

end Sifting

/-- The sets at the positions that a pass by size keeps, in order. -/
def absorbBySize (sets : List IndexSet) : List IndexSet :=
  let pass := (positionsBySize sets).foldl (Sifting.visit sets) (.start sets.length)
  ((sets.zip pass.keep).filter (·.2)).map (·.1)

/-! ## The tree of all members -/

/-- The sets of a list up to some position. -/
structure Gathered where
  /-- The members of the sets, ascending. -/
  paths : Paths
  /-- The first occurrences, the latest first. -/
  fresh : List IndexSet

namespace Gathered

def nothing : Gathered := ⟨.none, []⟩

/-- Add the next set of the list, unless it is a repetition. -/
def add (g : Gathered) (s : IndexSet) : Gathered :=
  let path := s.toList
  if g.paths.contains path then g else ⟨g.paths.insert path, s :: g.fresh⟩

/-- Whether a strict subset of `s` was gathered. -/
def absorbs (g : Gathered) (s : IndexSet) : Bool := g.paths.anyWithin s s.size

end Gathered

/-- The sets that contain no other set of the list, each once, in order. -/
def absorb (sets : List IndexSet) : List IndexSet :=
  let gathered := sets.foldl Gathered.add Gathered.nothing
  (gathered.fresh.filter fun s => !gathered.absorbs s).reverse

end Covering

end TwoLevel
