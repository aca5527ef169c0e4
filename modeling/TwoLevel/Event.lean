/-
# TwoLevel.Event — what a minimization reports on its way

Every stage of a minimization reports what it did as an `Event`. An event belongs
to a `Stage` and has a `Level`: single merges and dropped repetitions are detail,
everything else is summary. `message` is its wording.
-/
import TwoLevel.Cost
import TwoLevel.Text.Bracketed

namespace TwoLevel

set_option autoImplicit false

/-- The parts of a minimization that report. -/
inductive Stage where
  | minimization
  | generation
  | repetition
  | selection
  | covering
  | pricing
  deriving DecidableEq, Repr

/-- How much detail a report carries. -/
inductive Level where
  | debug
  | trace
  deriving DecidableEq, Repr

/-- Something a minimization did. -/
inductive Event where
  /-- The minimization of a function of `count` variables began. -/
  | started (count : Nat) (minterms : List Word)
  /-- Two implicants of `count` variables combined. -/
  | merged (count : Nat) (left right result : Implicant)
  /-- Of `before` implicants `after` were left when repetitions were dropped. -/
  | repeatsDropped (before after : Nat)
  /-- A round of merging ended with so many implicants present. -/
  | roundEnded (round merges implicants : Nat)
  /-- The essential implicants were selected. -/
  | selected (essential candidates uncovered : Nat)
  /-- A clause was multiplied in, and so many combinations were left. -/
  | clauseExpanded (clause total combinations : Nat)
  /-- The budget was exceeded, and the covering goes on greedily. -/
  | fellBack (budget combinations : Nat)
  /-- The greedy covering took a candidate. -/
  | candidateTaken (index gain : Nat)
  /-- The cheapest combination was chosen. -/
  | combinationChosen (members : List Nat) (cost : Cost)
  /-- The minimization ended with so many terms. -/
  | finished (terms : Nat) (expression : String)
  deriving DecidableEq, Repr

def Stage.label : Stage → String
  | .minimization => "minimize"
  | .generation => "generate"
  | .repetition => "dedup"
  | .selection => "essential"
  | .covering => "petrick"
  | .pricing => "cost"

def Level.label : Level → String
  | .debug => "DEBUG"
  | .trace => "TRACE"

/-- Whether a reader who asks for `wanted` also gets reports of this level. -/
def Level.shownAt (level wanted : Level) : Bool :=
  match level, wanted with
  | .trace, .debug => false
  | _, _ => true

namespace Event

def stage : Event → Stage
  | .started .. | .fellBack .. | .finished .. => .minimization
  | .merged .. | .roundEnded .. => .generation
  | .repeatsDropped .. => .repetition
  | .selected .. => .selection
  | .clauseExpanded .. | .candidateTaken .. => .covering
  | .combinationChosen .. => .pricing

def level : Event → Level
  | .merged .. | .repeatsDropped .. => .trace
  | _ => .debug

def message : Event → String
  | .started count minterms =>
      s!"minimize(num_vars = {count}, minterms = " ++ Text.bracketed minterms ++ ")"
  | .merged count left right result =>
      "combine " ++ left.display ++ " + " ++ right.display ++ " -> " ++ result.pattern count
  | .repeatsDropped before after => s!"dedup: {before} -> {after}"
  | .roundEnded round merges implicants =>
      s!"round {round}: {merges} combinations, {implicants} implicants"
  | .selected essential candidates uncovered =>
      s!"select: {essential} essential, {candidates} candidates, {uncovered} uncovered"
  | .clauseExpanded clause total combinations =>
      s!"petrick: clause {clause}/{total} -> {combinations} combinations"
  | .fellBack budget combinations =>
      s!"petrick: budget {budget} exceeded ({combinations} combinations), falling back to greedy"
  | .candidateTaken index gain => s!"greedy: take candidate {index} covering {gain} minterms"
  | .combinationChosen members cost =>
      "choose: " ++ Text.bracketed members ++ " with cost " ++ cost.text
  | .finished terms expression => s!"minimize: {terms} terms: " ++ expression

end Event

end TwoLevel
