/-
# TwoLevel.Covering.Greedy — covering by the best next candidate

Take, again and again, the candidate that covers the most minterms still to be
covered; of several, one with the fewest literals, and of those the first. Every
pick covers something new, so there are at most as many picks as minterms: that
number bounds the recursion.
-/
import TwoLevel.Fault
import TwoLevel.Implicant
import TwoLevel.IndexSet

namespace TwoLevel

set_option autoImplicit false

namespace Covering

/-- A candidate that may be taken next, and how many minterms it would cover. -/
structure Offer where
  index : Nat
  implicant : Implicant
  gain : Nat
  literals : Nat
  deriving DecidableEq, Repr

/-- Whether an offer is preferred to one of a lower index. -/
def Offer.beats (later earlier : Offer) : Bool :=
  earlier.gain < later.gain || (earlier.gain == later.gain && later.literals < earlier.literals)

/-- How many entries of a list of minterms an implicant covers. -/
def gain (remaining : List Word) (a : Implicant) : Nat := remaining.countP a.covers

/-- The candidates that are not chosen and cover something, by ascending index. -/
def offers (n : Arity) (candidates : List Implicant) (chosen : IndexSet) (remaining : List Word) :
    List Offer :=
  candidates.zipIdx.filterMap fun (a, i) =>
    if chosen.contains i then none
    else
      let covered := gain remaining a
      if covered = 0 then none else some ⟨i, a, covered, a.literals n⟩

/-- The preferred offer of a list by ascending index. -/
def best? : List Offer → Option Offer
  | [] => none
  | first :: rest =>
      some (rest.foldl (fun best offer => if offer.beats best then offer else best) first)

/-- The course of a greedy covering: its picks, and how it ended. -/
structure GreedyCovering where
  picks : List Offer
  outcome : Except Error IndexSet

/-- Cover `remaining` on top of what is chosen, by at most `limit` picks. -/
def greedyFrom (n : Arity) (candidates : List Implicant) :
    Nat → IndexSet → List Word → GreedyCovering
  | 0, chosen, _ => ⟨[], .ok chosen⟩
  | _ + 1, chosen, [] => ⟨[], .ok chosen⟩
  | limit + 1, chosen, first :: others =>
      match best? (offers n candidates chosen (first :: others)) with
      | none => ⟨[], .error (.uncoverable first)⟩
      | some pick =>
          let later := greedyFrom n candidates limit (chosen.insert pick.index)
            ((first :: others).filter fun m => !pick.implicant.covers m)
          ⟨pick :: later.picks, later.outcome⟩

/-- The greedy covering of `uncovered`. -/
def greedyCovering (n : Arity) (uncovered : List Word) (candidates : List Implicant) :
    GreedyCovering :=
  greedyFrom n candidates uncovered.length (IndexSet.withCapacity candidates.length) uncovered

/-- The candidates that the greedy covering chooses. -/
def greedy (n : Arity) (uncovered : List Word) (candidates : List Implicant) :
    Except Error IndexSet :=
  (greedyCovering n uncovered candidates).outcome

end Covering

end TwoLevel
