/-
# TwoLevel.Variable — variables and their names

A variable is known by its position, counted from the most significant one. The
first 26 are named `A` to `Z`, the others `x26`, `x27` and so on. `name` writes
the name, `ofName?` reads one: a single capital letter, or `x` followed by
decimal digits whose value is a position from 26 on.
-/
import TwoLevel.Word

namespace TwoLevel

set_option autoImplicit false

/-- A variable, by its position; position `0` is the most significant. -/
structure Variable where
  position : UInt32
  deriving DecidableEq, Repr

namespace Variable

/-- How many variables are named by a letter. -/
def letters : Nat := 26

/-- The variable's name. -/
def name (v : Variable) : List Char :=
  if v.position.toNat < letters then [Char.ofNat ('A'.toNat + v.position.toNat)]
  else 'x' :: Nat.toDigits 10 v.position.toNat

/-- The position a row of decimal digits names: none if the row is empty, has
another character, or its value does not fit in 32 bits. -/
def positionOfDigits? (digits : List Char) : Option UInt32 :=
  if digits ≠ [] ∧ digits.all Char.isDigit then
    let value := Nat.ofDigitChars 10 digits 0
    if value < UInt32.size then some (UInt32.ofNat value) else none
  else none

/-- The variable that a name stands for. -/
def ofName? : List Char → Option Variable
  | [] => none
  | c :: rest =>
    if c.isUpper ∧ rest = [] then some ⟨UInt32.ofNat (c.toNat - 'A'.toNat)⟩
    else if c = 'x' then
      match positionOfDigits? rest with
      | some position => if letters ≤ position.toNat then some ⟨position⟩ else none
      | none => none
    else none

/-- The variable that owns bit position `bit` among `count` variables. -/
def ofBit (bit count : Nat) : Variable := ⟨UInt32.ofNat (count - 1 - bit)⟩

/-- The bit position a variable owns among `count` variables. -/
def bit (v : Variable) (count : Nat) : UInt32 := UInt32.ofNat (count - 1 - v.position.toNat)

end Variable

end TwoLevel
