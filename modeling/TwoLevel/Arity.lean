/-
# TwoLevel.Arity — how many variables a function has

Minterms are words, so a function has at most 64 variables: `Arity` carries that
bound. `mask` is the word of all positions in use, and `admits` says that a word
sets no other position.
-/
import TwoLevel.Word

namespace TwoLevel

set_option autoImplicit false

/-- A number of variables that fits in a word. -/
structure Arity where
  size : Nat
  size_le : size ≤ 64
  deriving DecidableEq, Repr

namespace Arity

/-- The largest number of variables a word can hold. -/
def largest : Nat := 64

/-- `n` as an arity, if it is not too large. -/
def ofNat? (n : Nat) : Option Arity := if within : n ≤ largest then some ⟨n, within⟩ else none

/-- The positions in use: those below the number of variables. -/
def mask (n : Arity) : Word := Word.low n.size

/-- Whether `m` is an assignment of `n` variables. -/
def admits (n : Arity) (m : Word) : Bool := m &&& ~~~n.mask == 0

@[simp] theorem bit_mask (n : Arity) (i : Nat) : n.mask.bit i = decide (i < n.size) :=
  Word.bit_low n.size_le i

end Arity

end TwoLevel
