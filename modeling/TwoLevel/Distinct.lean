/-
# TwoLevel.Distinct — first occurrences of implicants

The same implicant is reached along several paths of combination. `distinct`
keeps the first implicant of every key, in order. What was kept so far is grouped
by mask: a repetition can only be in its own group, where it is found by its
minterms (`repeats_ofList`).
-/
import TwoLevel.ByMask

namespace TwoLevel

set_option autoImplicit false

/-- Whether one of the implicants in `seen` has the key of `a`. -/
def repeats (seen : ByMask) (a : Implicant) : Bool :=
  (seen.having a.mask).any fun b => b.minterms == a.minterms

/-- The implicants whose key is not in `seen` and has not occurred before. -/
def distinctFrom (seen : ByMask) : List Implicant → List Implicant
  | [] => []
  | a :: rest =>
      if repeats seen a then distinctFrom seen rest else a :: distinctFrom (seen.add a) rest

/-- The first implicant of every key, in order. -/
def distinct (implicants : List Implicant) : List Implicant := distinctFrom [] implicants

theorem repeats_add (seen : ByMask) (b a : Implicant) :
    repeats (seen.add b) a = (b.key == a.key || repeats seen a) := by
  have keys : (b.key == a.key) = (b.minterms == a.minterms && b.mask == a.mask) := rfl
  by_cases same : b.mask = a.mask <;> simp [repeats, ByMask.having_add, keys, same]

/-- Grouping does not change what counts as a repetition. -/
theorem repeats_ofList (seen : List Implicant) (a : Implicant) :
    repeats (ByMask.ofList seen) a = seen.any fun b => b.key == a.key := by
  induction seen with
  | nil => rfl
  | cons b rest ih =>
    have step : ByMask.ofList (b :: rest) = (ByMask.ofList rest).add b := rfl
    rw [step, repeats_add, ih, List.any_cons]

end TwoLevel
