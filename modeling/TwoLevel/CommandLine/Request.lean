/-
# TwoLevel.CommandLine.Request — what the program does with a request

A `Request` is what the program takes from its command line. `Request.answer` minimizes as
asked and says what is printed: the expression, a row for each term of the cover, the prime
implicant chart if wanted, and for up to 16 variables the outcome of the program's own check,
which reads the printed expression back and compares its truth table with the minterms.

With `debug` the reports of the minimization are logged, and the log goes to standard output,
too. They are all made before anything is printed, so the log comes first (`run`). How a report
is worded is said here (`Request.reports`); how a logger writes it down is its own affair, with
the time of day in it, and a parameter (`Logger`). So is the reading of the arguments. What goes
to standard error is the complaint of a failure; that of a malformed command line is left out.
-/
import TwoLevel.Expression.Parser
import TwoLevel.Minimizer
import TwoLevel.Trace.Chart
import TwoLevel.TruthTable

namespace TwoLevel

set_option autoImplicit false

namespace CommandLine

/-- What the program is asked for. -/
structure Request where
  minterms : List Word
  vars : Nat
  /-- The limit on combinations; `0` is no limit. -/
  budget : Nat
  policy : BudgetPolicy
  chart : Bool
  /-- Whether reports are logged. -/
  debug : Bool
  deriving DecidableEq, Repr

def Request.config (r : Request) : Config :=
  ⟨if r.budget = 0 then none else some r.budget, r.policy⟩

/-! ## The log -/

/-- A report as it comes to a logger: how detailed it is, where it was made and its text. -/
structure Report where
  level : Level
  target : String
  message : String
  deriving DecidableEq, Repr

/-- A report of the minimization. -/
def Report.ofEvent (e : Event) : Report := ⟨e.level, "qmc_rs::" ++ e.stage.label, e.message⟩

/-- A configuration, written field by field. -/
def configText (config : Config) : String :=
  let limit := match config.maxCombinations with
    | none => "None"
    | some limit => s!"Some({limit})"
  let policy := match config.policy with
    | .fail => "Fail"
    | .greedy => "Greedy"
  "MinimizerConfig \x7b max_combinations: " ++ limit ++ ", budget_policy: " ++ policy ++ " \x7d"

/-- The report of the program itself. -/
def Report.ofConfig (config : Config) : Report :=
  ⟨.debug, "minimize", "config: " ++ configText config⟩

/-- The reports that come to the logger: of a failure, too, those made before it. Without `debug`
only warnings would be logged, and none of the reports is one. -/
def Request.reports (r : Request) : List Report :=
  if r.debug then
    let made := (journal r.config r.minterms r.vars).events.map Report.ofEvent
    (Report.ofConfig r.config :: made).filter fun report => report.level.shownAt .debug
  else []

/-- How a logger writes down the reports, given the number of those before. -/
abbrev Logger := Nat → Report → String

/-- What is logged for a request. -/
def Request.logged (logger : Logger) (r : Request) : String := String.join (r.reports.mapIdx logger)

/-! ## The answer -/

/-- How a command line is answered: with text; with the failure of the minimization, or the
fault found in the printed expression after some text; or not at all, if it is malformed. -/
inductive Answer where
  | text (output : String)
  | failed (output : String) (complaint : String)
  | malformed
  deriving DecidableEq, Repr

namespace Answer

def exitCode : Answer → Nat
  | .text _ => 0
  | .failed .. => 1
  | .malformed => 2

/-- What goes to standard output. -/
def output : Answer → String
  | .text output => output
  | .failed output _ => output
  | .malformed => ""

/-- The answer with text in front of its output. -/
def after (front : String) : Answer → Answer
  | .text output => .text (front ++ output)
  | .failed output complaint => .failed (front ++ output) complaint
  | .malformed => .malformed

end Answer

/-- The row of a cover term: its pattern and its minterms. -/
def coverRow (count : Nat) (a : Implicant) : String :=
  "  " ++ a.pattern count ++ "  " ++ Text.bracketed a.minterms ++ "\n"

/-- The result of a minimization, and the chart if asked for. -/
def body (r : Request) (result : Minimization) (trace : Trace) : String :=
  "f = " ++ result.expression ++ "\n" ++ String.join (result.cover.map (coverRow r.vars)) ++
    if r.chart && !result.isConstant then "\n" ++ trace.chart else ""

/-- Whether an expression is true on exactly the assignments in `minterms`. -/
def agrees (e : Expression) (count : Nat) (minterms : List Word) : Bool :=
  (TruthTable.assignments count).all fun x => e.eval x == minterms.contains x

/-- The largest number of variables for which the answer is checked. -/
def largestChecked : Nat := 16

/-- Check a printed answer, where that is feasible. -/
def checked (r : Request) (result : Minimization) (trace : Trace) (printed : String) : Answer :=
  if r.vars ≤ largestChecked then
    match Expression.parse result.expression r.vars with
    | .error cause => .failed printed (Error.invalidExpression cause).message
    | .ok e =>
        let verdict := if agrees e r.vars trace.minterms then "true" else "false"
        .text (printed ++ "verified: " ++ verdict ++ "\n")
  else .text printed

/-- What the program prints for a request. -/
def Request.answer (r : Request) : Answer :=
  match minimizeTraced r.config r.minterms r.vars with
  | .error failure => .failed "" failure.message
  | .ok (result, trace) => checked r result trace (body r result trace)

/-- A run of the program on a command line, as `read` reads it: the log, and what is printed. -/
def run (read : List String → Option Request) (logger : Logger) (arguments : List String) :
    Answer :=
  match read arguments with
  | none => .malformed
  | some r => r.answer.after (r.logged logger)

end CommandLine

end TwoLevel
