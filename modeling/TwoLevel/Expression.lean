/-
# TwoLevel.Expression — sums of products as values

A `Product` fixes the bits of an assignment in `care` to those of `value`; an
`Expression` is a sum of products. `eval` is their value on an assignment: the
empty product is true, the empty sum is false.
-/
import TwoLevel.Word

namespace TwoLevel

set_option autoImplicit false

/-- A conjunction of literals. -/
structure Product where
  care : Word
  value : Word
  deriving DecidableEq, Repr

/-- A disjunction of products. -/
structure Expression where
  terms : List Product
  deriving DecidableEq, Repr

namespace Product

/-- The product without literals. -/
def one : Product := ⟨0, 0⟩

/-- The product with one more literal, on the position set in `position`. -/
def withLiteral (p : Product) (position : Word) (positive : Bool) : Product where
  care := p.care ||| position
  value := if positive then p.value ||| position else p.value

def eval (p : Product) (x : Word) : Bool := (x ^^^ p.value) &&& p.care == 0

end Product

def Expression.eval (e : Expression) (x : Word) : Bool := e.terms.any (·.eval x)

end TwoLevel
