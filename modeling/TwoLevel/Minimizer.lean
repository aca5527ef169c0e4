/-
# TwoLevel.Minimizer — from minterms to a minimal sum of products

`normalize` refuses what is no function of 1 to 64 variables and sorts the
minterms. Unless the function is constant, `journal` generates its prime
implicants, selects the essential ones, covers what they leave by one of the
cheapest irredundant combinations of the others, and writes the cover as an
expression. When the combinations exceed the budget, the policy decides between
failure and a greedy covering. `minimizeTraced` is the outcome of `journal`,
`minimize` the result in it.
-/
import TwoLevel.Covering.Expansion
import TwoLevel.Covering.Greedy
import TwoLevel.Expression.Printer
import TwoLevel.Journal
import TwoLevel.Prime.Generation
import TwoLevel.Selection
import TwoLevel.Trace

namespace TwoLevel

set_option autoImplicit false

/-- What to do when the covering exceeds its budget. -/
inductive BudgetPolicy where
  | fail
  | greedy
  deriving DecidableEq, Repr

/-- How many combinations may be left after a step of the covering, if nothing else
is asked for. -/
def Config.defaultLimit : Nat := 16384

/-- How to minimize. -/
structure Config where
  /-- How many combinations may be left after a step of the covering; none is no limit. -/
  maxCombinations : Option Nat := some Config.defaultLimit
  policy : BudgetPolicy := .fail
  deriving DecidableEq, Repr

/-- A minimal sum of products: the chosen implicants, and their expression. The
cover of a constant function is empty. -/
structure Minimization where
  expression : String
  cover : List Implicant
  deriving DecidableEq, Repr

namespace Minimization

/-- The result for a constant function. -/
def constant (value : Bool) : Minimization := ⟨if value then "1" else "0", []⟩

def isConstant (r : Minimization) : Bool := r.cover.isEmpty

/-- The value of the function on an assignment. -/
def eval (r : Minimization) (x : Word) : Bool :=
  if r.isConstant then r.expression == "1" else coverEval r.cover x

end Minimization

/-- The function of `count` variables that is true on `minterms`: its arity and its
minterms in ascending order. -/
def normalize (minterms : List Word) (count : Nat) : Except Error (Arity × List Word) :=
  if count = 0 then .error .noVariables
  else
    match Arity.ofNat? count with
    | none => .error (.tooManyVariables count)
    | some n =>
        match minterms.find? fun m => !n.admits m with
        | some m => .error (.mintermOutOfRange m count)
        | none => .ok (n, Ascending.ofList minterms)

namespace Event

/-- The report that `before` implicants became `after`, if some were dropped. -/
def ofRepeats (before after : Nat) : List Event :=
  if after = before then [] else [.repeatsDropped before after]

/-- The reports of the `index`-th round of merging. -/
def ofRound (n : Arity) (index : Nat) (r : Round) : List Event :=
  r.merges.map (fun m => .merged n.size m.left m.right m.result) ++
    ((r.pooled.zip r.buckets).flatMap fun entry => ofRepeats entry.1.length entry.2.length) ++
    [.roundEnded index r.merges.length r.implicants.length]

/-- The reports of a generation. -/
def ofGeneration (n : Arity) (g : Generation) : List Event :=
  g.rounds.zipIdx.flatMap fun entry => ofRound n (entry.2 + 1) entry.1

/-- The reports of a selection among `primes`; what is no candidate is essential. -/
def ofSelection (primes : List Implicant) (s : Selection) : List Event :=
  ofRepeats (primes.length - s.candidates.length) s.essential.length ++
    [.selected s.essential.length s.candidates.length s.uncovered.length]

/-- The reports of the steps of an expansion of `total` clauses. -/
def ofExpansion (total : Nat) (e : Covering.Expansion) : List Event :=
  e.sizes.zipIdx.map fun entry => .clauseExpanded (entry.2 + 1) total entry.1

/-- The reports of the picks of a greedy covering. -/
def ofPicks (course : Covering.GreedyCovering) : List Event :=
  course.picks.map fun pick => .candidateTaken pick.index pick.gain

end Event

/-- How the minterms that essential implicants leave are covered. -/
structure Choice where
  combinations : List IndexSet
  chosen : IndexSet
  greedy : Bool

namespace Choice

/-- Nothing was left to cover. -/
def nothing : Choice := ⟨[], IndexSet.empty, false⟩

/-- The first of the cheapest of the irredundant combinations. -/
def ofCombinations (n : Arity) (s : Selection) (combinations : List IndexSet) :
    Journaled Choice := do
  let priced ← Journaled.ofMisuse (Priced.all n s.candidates combinations)
  match Priced.cheapest? priced with
  | none => pure ⟨combinations, IndexSet.empty, false⟩
  | some best => do
      Journaled.note [.combinationChosen best.combination.toList best.cost]
      pure ⟨combinations, best.combination, false⟩

/-- The greedy choice. -/
def ofGreedy (n : Arity) (s : Selection) : Journaled Choice := do
  let course := Covering.greedyCovering n s.uncovered s.candidates
  Journaled.note (Event.ofPicks course)
  let chosen ← Journaled.ofError course.outcome
  pure ⟨[], chosen, true⟩

/-- The choice a configuration makes. Only the budget's error is met by the policy;
every other error is the outcome. -/
def make (config : Config) (n : Arity) (s : Selection) : Journaled Choice :=
  if s.uncovered.isEmpty then pure nothing
  else do
    let expansion := Covering.expansion s.uncovered s.candidates config.maxCombinations
    Journaled.note (Event.ofExpansion s.uncovered.length expansion)
    match expansion.outcome, config.policy with
    | .ok combinations, _ => ofCombinations n s combinations
    | .error (.coveringBudgetExceeded combinations budget), .greedy => do
        Journaled.note [.fellBack budget combinations]
        ofGreedy n s
    | .error cause, _ => Journaled.ofError (.error cause)

end Choice

/-- The essential implicants and the chosen candidates, each once. -/
def assemble (s : Selection) (chosen : IndexSet) : Journaled (List Implicant) :=
  if chosen.allBelow s.candidates.length then do
    let terms := s.essential ++ chosen.pick s.candidates
    let cover := distinct terms
    Journaled.note (Event.ofRepeats terms.length cover.length)
    pure cover
  else Journaled.ofMisuse (.error .indexOutOfBounds)

/-- Minimize a function that is not constant. -/
def minimizeProper (config : Config) (n : Arity) (minterms : List Word) :
    Journaled (Minimization × Trace) := do
  let generation := generate n minterms
  Journaled.note (Event.ofGeneration n generation)
  let primes := generation.primes
  let s := select primes minterms
  Journaled.note (Event.ofSelection primes s)
  let choice ← Choice.make config n s
  let cover ← assemble s choice.chosen
  let expression := formatCover cover n.size
  Journaled.note [.finished cover.length expression]
  pure (⟨expression, cover⟩,
    { arity := n, minterms := minterms, rounds := generation.reports, primes := primes,
      essential := s.essential, candidates := s.candidates, uncovered := s.uncovered,
      combinations := choice.combinations, chosen := choice.chosen, greedy := choice.greedy })

/-- Minimize the function of `count` variables that is true on `minterms`, with
everything there is to report. -/
def journal (config : Config) (minterms : List Word) (count : Nat) :
    Journaled (Minimization × Trace) := do
  let (n, ascending) ← Journaled.ofError (normalize minterms count)
  Journaled.note [.started n.size ascending]
  let trace : Trace := { arity := n, minterms := ascending }
  if ascending.isEmpty then pure (Minimization.constant false, trace)
  else if ascending.length = 1 <<< n.size then pure (Minimization.constant true, trace)
  else minimizeProper config n ascending

/-- Minimize a function, together with the course of the minimization. -/
def minimizeTraced (config : Config) (minterms : List Word) (count : Nat) :
    Except Failure (Minimization × Trace) :=
  (journal config minterms count).outcome

/-- Minimize a function. Order and repetition of the minterms do not matter. -/
def minimize (config : Config) (minterms : List Word) (count : Nat) :
    Except Failure Minimization :=
  match minimizeTraced config minterms count with
  | .error failure => .error failure
  | .ok (result, _) => .ok result

end TwoLevel
