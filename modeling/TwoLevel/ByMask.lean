/-
# TwoLevel.ByMask — implicants grouped by their mask

Only implicants with the same mask combine, and only such are the same grouping of
minterms. `ByMask` keeps the implicants of every mask together, so that the search
for a partner or for a repetition does not go through all the others. `having`
reads a group, and `having_ofList` says what is in it: the implicants of that mask,
in order.
-/
import TwoLevel.Implicant

namespace TwoLevel

set_option autoImplicit false

/-- The implicants of one mask. -/
structure MaskGroup where
  mask : Word
  members : List Implicant
  deriving DecidableEq, Repr

/-- A collection of implicants: a group for every mask that occurs. -/
abbrev ByMask := List MaskGroup

namespace ByMask

/-- Put an implicant in front of its group. -/
def add (a : Implicant) : ByMask → ByMask
  | [] => [⟨a.mask, [a]⟩]
  | group :: others =>
      if group.mask = a.mask then ⟨group.mask, a :: group.members⟩ :: others
      else group :: add a others

/-- The groups of a list, each in the order of the list. -/
def ofList (implicants : List Implicant) : ByMask := implicants.foldr add []

/-- The implicants with a given mask. -/
def having (mask : Word) : ByMask → List Implicant
  | [] => []
  | group :: others => if group.mask = mask then group.members else having mask others

theorem having_add (mask : Word) (a : Implicant) (groups : ByMask) :
    having mask (add a groups) =
      if a.mask = mask then a :: having mask groups else having mask groups := by
  induction groups with
  | nil => by_cases own : a.mask = mask <;> simp [add, having, own]
  | cons group others ih =>
    unfold add
    by_cases same : group.mask = a.mask
    · by_cases own : a.mask = mask <;> simp [having, same, own]
    · by_cases first : group.mask = mask
      · have other : ¬a.mask = mask := fun own => same (first.trans own.symm)
        simp [having, first, other, Ne.symm other]
      · simp [having, same, first, ih]

/-- A group holds the implicants of its mask, in order. -/
theorem having_ofList (mask : Word) (implicants : List Implicant) :
    having mask (ofList implicants) = implicants.filter fun a => a.mask == mask := by
  induction implicants with
  | nil => rfl
  | cons a rest ih =>
    have step : ofList (a :: rest) = add a (ofList rest) := rfl
    rw [step, having_add, ih, List.filter_cons]
    by_cases own : a.mask = mask <;> simp [own]

end ByMask

end TwoLevel
