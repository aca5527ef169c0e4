/-
# TwoLevel.Implicant — product terms and the minterms they group

An `Implicant` is a product term together with the ascending list of minterms it
covers. `mask` marks the eliminated variables; under the other positions `base`
gives the polarity of each literal. `ofMinterm` is the term of one minterm, and
two terms with the same mask whose bases differ in exactly one position in use
`combine` into the term without that position. `WellBuilt` says that a term
arises in this way.
-/
import TwoLevel.Arity
import TwoLevel.Ascending

namespace TwoLevel

set_option autoImplicit false

/-- A product term and the minterms it covers. -/
structure Implicant where
  minterms : List Word
  mask : Word
  base : Word
  deriving DecidableEq, Repr

namespace Implicant

/-- The term that is true on the minterm `m` only. -/
def ofMinterm (m : Word) : Implicant := ⟨[m], 0, m⟩

/-- What tells two implicants apart as groupings of minterms. -/
def key (a : Implicant) : List Word × Word := (a.minterms, a.mask)

/-- The positions in use that carry a literal. -/
def care (a : Implicant) (n : Arity) : Word := ~~~a.mask &&& n.mask

/-- How many literals the term has. -/
def literals (a : Implicant) (n : Arity) : Nat := (a.care n).popCount

/-- How many of its literals are positive. -/
def ones (a : Implicant) (n : Arity) : Nat := (a.base &&& a.care n).popCount

/-- Whether `m` is among the minterms of the term. -/
def covers (a : Implicant) (m : Word) : Bool := a.minterms.contains m

/-- The value of the term on an assignment. -/
def eval (a : Implicant) (x : Word) : Bool := (x ^^^ a.base) &&& ~~~a.mask == 0

/-- The literals in which two terms differ. -/
def difference (a b : Implicant) (n : Arity) : Word := (a.base ^^^ b.base) &&& a.care n

/-- The one position in which two terms with the same mask differ, as a word. -/
def differingBit (a b : Implicant) (n : Arity) : Option Word :=
  if a.mask = b.mask then
    if (difference a b n).popCount = 1 then some (difference a b n) else none
  else none

/-- The term that covers what two terms with one differing position cover. -/
def combine (a b : Implicant) (n : Arity) : Option Implicant :=
  match differingBit a b n with
  | none => none
  | some position =>
      let minterms := Ascending.union a.minterms b.minterms
      some ⟨minterms, a.mask ||| b.mask ||| position, minterms.foldl (· &&& ·) n.mask⟩

/-- Which of two terms comes first does not matter. -/
theorem differingBit_comm (a b : Implicant) (n : Arity) :
    differingBit a b n = differingBit b a n := by
  by_cases same : a.mask = b.mask
  · simp [differingBit, difference, care, same, UInt64.xor_comm]
  · simp [differingBit, same, Ne.symm same]

theorem combine_eq_none_of_mask_ne {a b : Implicant} (differ : a.mask ≠ b.mask) (n : Arity) :
    combine a b n = none := by
  simp [combine, differingBit, differ]

/-- The positions below `k`, most significant first: `-` where the variable is
eliminated, else the polarity of its literal. -/
def patternBelow (a : Implicant) : Nat → List Char
  | 0 => []
  | k + 1 => (if a.mask.bit k then '-' else if a.base.bit k then '1' else '0') :: a.patternBelow k

/-- The term as a row of one character a variable. -/
def pattern (a : Implicant) (count : Nat) : String := String.ofList (a.patternBelow count)

/-- The minterms of the term, written `m(1,3)`. -/
def display (a : Implicant) : String :=
  "m(" ++ ",".intercalate (a.minterms.map toString) ++ ")"

/-- Terms that come from single minterms by combination, each over an arity that
admits every minterm involved. -/
inductive WellBuilt : Implicant → Prop
  | ofMinterm (m : Word) : WellBuilt (ofMinterm m)
  | combine {a b c : Implicant} (n : Arity) (left : WellBuilt a) (right : WellBuilt b)
      (within : ∀ m ∈ a.minterms ++ b.minterms, n.admits m = true)
      (merged : a.combine b n = some c) : WellBuilt c

end Implicant

/-- The value of a sum of product terms on an assignment. -/
def coverEval (cover : List Implicant) (x : Word) : Bool := cover.any (·.eval x)

end TwoLevel
