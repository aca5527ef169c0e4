/-
# TwoLevel.Cost — what a cover costs

Covers are ranked by their number of terms, then by their number of literals.
`choose` takes the first of the cheapest combinations; `weighted` is the ranking
as one number, which agrees with it while literals stay below 1000.
-/
import TwoLevel.Fault
import TwoLevel.Implicant
import TwoLevel.IndexSet

namespace TwoLevel

set_option autoImplicit false

/-- The cost of a cover. -/
structure Cost where
  terms : Nat
  literals : Nat
  deriving DecidableEq, Repr

namespace Cost

instance : LT Cost :=
  ⟨fun a b => a.terms < b.terms ∨ (a.terms = b.terms ∧ a.literals < b.literals)⟩

instance (a b : Cost) : Decidable (a < b) :=
  inferInstanceAs
    (Decidable (a.terms < b.terms ∨ (a.terms = b.terms ∧ a.literals < b.literals)))

instance : Ord Cost := ⟨fun a b => compareOfLessAndEq a b⟩

/-- The cost of a list of product terms. -/
def ofTerms (n : Arity) (terms : List Implicant) : Cost :=
  ⟨terms.length, (terms.map (·.literals n)).foldr (· + ·) 0⟩

/-- The cost of the candidates at the members of a combination. -/
def of (n : Arity) (candidates : List Implicant) (combination : IndexSet) : Except Misuse Cost :=
  if combination.allBelow candidates.length then .ok (ofTerms n (combination.pick candidates))
  else .error .indexOutOfBounds

/-- The cost as one number. -/
def weighted (c : Cost) : Nat := c.terms * 1000 + c.literals

def text (c : Cost) : String := s!"{c.terms} terms/{c.literals} literals"

end Cost

/-- A combination and its cost. -/
structure Priced where
  combination : IndexSet
  cost : Cost

namespace Priced

/-- The costs of several combinations, in order. -/
def all (n : Arity) (candidates : List Implicant) : List IndexSet → Except Misuse (List Priced)
  | [] => .ok []
  | combination :: rest =>
      match Cost.of n candidates combination with
      | .error misuse => .error misuse
      | .ok cost =>
          match all n candidates rest with
          | .error misuse => .error misuse
          | .ok others => .ok (⟨combination, cost⟩ :: others)

/-- The first of the cheapest. -/
def cheapest? : List Priced → Option Priced
  | [] => none
  | first :: rest =>
      some (rest.foldl (fun best next => if next.cost < best.cost then next else best) first)

end Priced

/-- The first of the cheapest combinations, or the empty one if there are none. -/
def choose (n : Arity) (candidates : List Implicant) (combinations : List IndexSet) :
    Except Misuse IndexSet :=
  match Priced.all n candidates combinations with
  | .error misuse => .error misuse
  | .ok priced =>
      match Priced.cheapest? priced with
      | none => .ok IndexSet.empty
      | some best => .ok best.combination

end TwoLevel
