/-
# TwoLevel.Guarded — operations on a bare number of variables

Operations on implicants take an `Arity`. For callers that hold any number, each
has a guarded form that answers what the operation answers, and is a misuse where
the operation would have to use a number of variables that no word can hold. Where
nothing depends on that number (no implicant to look at, masks that differ) there
is an answer for any number.
-/
import TwoLevel.Cost
import TwoLevel.Covering.Greedy
import TwoLevel.Prime.Generation

namespace TwoLevel

set_option autoImplicit false

namespace Guarded

/-- A number of variables as an arity. -/
def arity (count : Nat) : Except Misuse Arity :=
  match Arity.ofNat? count with
  | none => .error .tooManyVariables
  | some n => .ok n

def mask (count : Nat) : Except Misuse Word := (arity count).map (·.mask)

def admits (count : Nat) (m : Word) : Except Misuse Bool := (arity count).map (·.admits m)

def literals (a : Implicant) (count : Nat) : Except Misuse Nat := (arity count).map a.literals

def ones (a : Implicant) (count : Nat) : Except Misuse Nat := (arity count).map a.ones

/-- The variable that owns a bit. -/
def variableOfBit (bit : UInt32) (count : Nat) : Except Misuse Variable :=
  if bit.toNat < count then .ok (Variable.ofBit bit.toNat count)
  else .error (.bitOutOfRange bit.toNat count)

/-- The bit that a variable owns. -/
def bitOfVariable (v : Variable) (count : Nat) : Except Misuse UInt32 :=
  if v.position.toNat < count then .ok (v.bit count) else .error (.variableOutOfRange v count)

/-- Implicants with different masks differ in more than a bit, whatever the number. -/
def differingBit (a b : Implicant) (count : Nat) : Except Misuse (Option Word) :=
  if a.mask = b.mask then (arity count).map fun n => a.differingBit b n else .ok none

def combine (a b : Implicant) (count : Nat) : Except Misuse (Option Implicant) :=
  if a.mask = b.mask then (arity count).map fun n => a.combine b n else .ok none

/-- The course of a generation. Without minterms it is the same for every arity. -/
def generate (minterms : List Word) (count : Nat) : Except Misuse Generation :=
  if minterms.isEmpty then .ok (TwoLevel.generate ⟨0, Nat.zero_le _⟩ [])
  else (arity count).map fun n => TwoLevel.generate n minterms

/-- The greedy covering; literals are counted as soon as there are both a minterm
to cover and a candidate. -/
def greedy (uncovered : List Word) (candidates : List Implicant) (count : Nat) :
    Except Failure IndexSet :=
  let answer (n : Arity) : Except Failure IndexSet :=
    match Covering.greedy n uncovered candidates with
    | .error cause => .error (.error cause)
    | .ok chosen => .ok chosen
  if uncovered.isEmpty || candidates.isEmpty then answer ⟨0, Nat.zero_le _⟩
  else
    match arity count with
    | .error misuse => .error (.misuse misuse)
    | .ok n => answer n

/-- The fault of pricing combinations when literals cannot be counted: their first
member is no candidate, or it has too many variables to look at. -/
def pricingFault? (candidates : List Implicant) (combinations : List IndexSet) : Option Misuse :=
  match combinations.flatMap (·.toList) with
  | [] => none
  | i :: _ => some (if i < candidates.length then .tooManyVariables else .indexOutOfBounds)

/-- Price combinations over an arity if `count` is one, over any if none has a member. -/
def priced {α : Type} (candidates : List Implicant) (combinations : List IndexSet) (count : Nat)
    (answer : Arity → Except Misuse α) : Except Misuse α :=
  match Arity.ofNat? count, pricingFault? candidates combinations with
  | some n, _ => answer n
  | none, some fault => .error fault
  | none, none => answer ⟨0, Nat.zero_le _⟩

def cost (combination : IndexSet) (candidates : List Implicant) (count : Nat) :
    Except Misuse Cost :=
  priced candidates [combination] count fun n => Cost.of n candidates combination

def choose (combinations : List IndexSet) (candidates : List Implicant) (count : Nat) :
    Except Misuse IndexSet :=
  priced candidates combinations count fun n => TwoLevel.choose n candidates combinations

end Guarded

end TwoLevel
