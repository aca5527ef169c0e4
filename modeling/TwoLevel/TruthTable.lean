/-
# TwoLevel.TruthTable — functions by their values

The truth table of a function lists its values on all assignments in ascending
order. Tables of more than 24 variables are refused.
-/
import TwoLevel.Fault

namespace TwoLevel

set_option autoImplicit false

namespace TruthTable

/-- The largest number of variables a table is made for. -/
def largest : Nat := 24

/-- All assignments of `count` variables, ascending. -/
def assignments (count : Nat) : List Word := (List.range (1 <<< count)).map UInt64.ofNat

/-- The values of `f` on all assignments of `count` variables. -/
def of (f : Word → Bool) (count : Nat) : Except Misuse (List Bool) :=
  if count ≤ largest then .ok ((assignments count).map f) else .error .tableTooLarge

end TruthTable

end TwoLevel
