/-
# TwoLevel.Selection — essential implicants

An implicant is essential when it covers a minterm that no other implicant of the
list covers: every cover contains it. `select` splits a list into the essential
implicants and the candidates, and says which minterms the essential ones leave
uncovered.
-/
import TwoLevel.Distinct

namespace TwoLevel

set_option autoImplicit false

/-- A list of implicants, split by whether they are essential. -/
structure Selection where
  essential : List Implicant
  candidates : List Implicant
  uncovered : List Word
  deriving DecidableEq, Repr

/-- How many entries of a list cover `m`. -/
def coverage (implicants : List Implicant) (m : Word) : Nat := implicants.countP (·.covers m)

/-- Whether exactly one entry of a list covers `m`; the second one settles it. -/
def coveredOnce (m : Word) : List Implicant → Bool
  | [] => false
  | a :: rest => if a.covers m then !rest.any (·.covers m) else coveredOnce m rest

theorem coveredOnce_eq (m : Word) (implicants : List Implicant) :
    coveredOnce m implicants = (coverage implicants m == 1) := by
  induction implicants with
  | nil => rfl
  | cons a rest ih =>
    cases first : a.covers m with
    | false => simpa [coveredOnce, coverage, first] using ih
    | true =>
      rw [Bool.eq_iff_iff]
      simp [coveredOnce, coverage, first, List.countP_eq_zero]

/-- Whether `a` has a minterm that one entry of the list covers alone. -/
def isEssential (implicants : List Implicant) (a : Implicant) : Bool :=
  a.minterms.any fun m => coveredOnce m implicants

/-- The minterms that no implicant of a cover groups. -/
def uncoveredBy (cover : List Implicant) (minterms : List Word) : List Word :=
  minterms.filter fun m => !cover.any (·.covers m)

/-- Split implicants into essential ones and candidates, both in order. -/
def select (implicants : List Implicant) (minterms : List Word) : Selection :=
  let (alone, candidates) := implicants.partition (isEssential implicants)
  let essential := distinct alone
  ⟨essential, candidates, uncoveredBy essential minterms⟩

end TwoLevel
