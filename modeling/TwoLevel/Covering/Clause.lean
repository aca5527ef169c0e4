/-
# TwoLevel.Covering.Clause — what covers each minterm

The clause of a minterm is the set of positions of the candidates that cover it.
A minterm with an empty clause cannot be covered; the first such minterm is the
error.
-/
import TwoLevel.Fault
import TwoLevel.Implicant
import TwoLevel.IndexSet

namespace TwoLevel

set_option autoImplicit false

namespace Covering

/-- The positions of the candidates that cover `m`. -/
def clause (candidates : List Implicant) (m : Word) : IndexSet :=
  IndexSet.ofList ((candidates.zipIdx.filter fun entry => entry.1.covers m).map (·.2))

/-- One clause for each minterm, in order. -/
def clauses (candidates : List Implicant) : List Word → Except Error (List IndexSet)
  | [] => .ok []
  | m :: rest =>
      if (clause candidates m).isEmpty then .error (.uncoverable m)
      else
        match clauses candidates rest with
        | .error cause => .error cause
        | .ok others => .ok (clause candidates m :: others)

end Covering

end TwoLevel
