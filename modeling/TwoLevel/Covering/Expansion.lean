/-
# TwoLevel.Covering.Expansion — all irredundant coverings

Petrick's method: a covering picks a member of every clause, so the coverings are
the products of the clauses multiplied out. `expandAll` multiplies by one clause
at a time and absorbs after each step, so that after `k` steps the list holds the
minimal choices for the first `k` clauses. A budget bounds the length of that
list after every step.
-/
import TwoLevel.Covering.Absorption
import TwoLevel.Covering.Clause

namespace TwoLevel

set_option autoImplicit false

namespace Covering

/-- Multiply a sum of combinations by a clause. A combination that satisfies the
clause stays as it is: it would absorb whatever it expands to. -/
def expand (combinations : List IndexSet) (clause : IndexSet) : List IndexSet :=
  let choices := clause.toList
  combinations.flatMap fun combination =>
    if choices.any combination.contains then [combination] else choices.map combination.insert

/-- The course of an expansion: how many combinations were left after each step
within the budget, and how it ended. -/
structure Expansion where
  sizes : List Nat
  outcome : Except Error (List IndexSet)

/-- The budget, if it is smaller than `size`. -/
def overrun? (budget : Option Nat) (size : Nat) : Option Nat := budget.filter (· < size)

/-- Multiply by one clause after the other. -/
def expandAll (budget : Option Nat) (combinations : List IndexSet) : List IndexSet → Expansion
  | [] => ⟨[], .ok combinations⟩
  | clause :: rest =>
      let next := absorb (expand combinations clause)
      match overrun? budget next.length with
      | some limit => ⟨[], .error (.coveringBudgetExceeded next.length limit)⟩
      | none =>
          let later := expandAll budget next rest
          ⟨next.length :: later.sizes, later.outcome⟩

/-- The expansion of the clauses of `uncovered`, from the empty combination on. -/
def expansion (uncovered : List Word) (candidates : List Implicant) (budget : Option Nat) :
    Expansion :=
  match clauses candidates uncovered with
  | .error cause => ⟨[], .error cause⟩
  | .ok all => expandAll budget [IndexSet.empty] all

/-- The irredundant combinations of candidates that cover `uncovered`. -/
def irredundant (uncovered : List Word) (candidates : List Implicant) (budget : Option Nat) :
    Except Error (List IndexSet) :=
  (expansion uncovered candidates budget).outcome

end Covering

end TwoLevel
