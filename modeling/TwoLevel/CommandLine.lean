/-
# TwoLevel.CommandLine — the command-line program

The arguments are minterms and options in any order: `-v`/`--vars` for the number
of variables, `--budget` for the limit on combinations (`0` is no limit),
`--policy` for what to do beyond it, `--chart` for the prime implicant chart and
`--debug` for the log. An option is given at most once, its value never begins
with a dash, and after `--` there are only minterms. `Request.ofArguments?` reads
them so, and `answer` runs the program on what it reads, with a log of one line a
report. The program itself depends on neither: `run` takes any reading of the
arguments and any logger, and what is proved of it is proved for all of them.
-/
import TwoLevel.CommandLine.Request

namespace TwoLevel

set_option autoImplicit false

namespace CommandLine

/-- A numeral: an optional plus sign and decimal digits of a value below `2 ^ 64`. -/
def number? (text : String) : Option Nat :=
  let digits := match text.toList with
    | '+' :: rest => rest
    | all => all
  if digits ≠ [] ∧ digits.all Char.isDigit then
    let value := Nat.ofDigitChars 10 digits 0
    if value < UInt64.size then some value else none
  else none

def policy? (text : String) : Option BudgetPolicy :=
  if text = "fail" then some .fail else if text = "greedy" then some .greedy else none

/-- The options that take a value. -/
inductive Setting where
  | vars
  | budget
  | policy
  deriving DecidableEq, Repr

/-- The options without a value. -/
inductive Switch where
  | chart
  | debug
  deriving DecidableEq, Repr

/-- What one argument is. -/
inductive Argument where
  | minterm (text : String)
  | setting (which : Setting) (value : Option String)
  | switch (which : Switch)
  | separator
  | unknown
  deriving DecidableEq, Repr

/-- The option with this name, with the value that is attached to it. -/
def longOption (name : String) (value : Option String) : Argument :=
  match name, value with
  | "vars", _ => .setting .vars value
  | "budget", _ => .setting .budget value
  | "policy", _ => .setting .policy value
  | "chart", none => .switch .chart
  | "debug", none => .switch .debug
  | _, _ => .unknown

/-- Tell what an argument is by its dashes. -/
def classify (argument : String) : Argument :=
  match argument.toList with
  | ['-'] => .minterm argument
  | ['-', '-'] => .separator
  | '-' :: '-' :: rest =>
      match rest.dropWhile (· ≠ '=') with
      | [] => longOption (String.ofList rest) none
      | _ :: value => longOption (String.ofList (rest.takeWhile (· ≠ '='))) (String.ofList value)
  | ['-', 'v'] => .setting .vars none
  | '-' :: 'v' :: '=' :: value => .setting .vars (String.ofList value)
  | '-' :: 'v' :: value => .setting .vars (String.ofList value)
  | '-' :: _ => .unknown
  | _ => .minterm argument

/-- What has been read of a command line. -/
structure Draft where
  vars : Option Nat := none
  budget : Option Nat := none
  policy : Option BudgetPolicy := none
  chart : Bool := false
  debug : Bool := false
  minterms : List Word := []
  deriving DecidableEq, Repr

namespace Draft

def addMinterm (d : Draft) (text : String) : Option Draft :=
  (number? text).map fun m => { d with minterms := d.minterms ++ [UInt64.ofNat m] }

/-- Give an option its value; refused if it has one already. -/
def assign (d : Draft) (which : Setting) (value : String) : Option Draft :=
  match which with
  | .vars => if d.vars.isSome then none else (number? value).map fun v => { d with vars := v }
  | .budget =>
      if d.budget.isSome then none else (number? value).map fun v => { d with budget := v }
  | .policy =>
      if d.policy.isSome then none else (policy? value).map fun p => { d with policy := p }

def turnOn (d : Draft) : Switch → Option Draft
  | .chart => if d.chart then none else some { d with chart := true }
  | .debug => if d.debug then none else some { d with debug := true }

/-- Read arguments that can only be minterms. -/
def readMinterms (d : Draft) : List String → Option Draft
  | [] => some d
  | text :: rest => (d.addMinterm text).bind fun next => next.readMinterms rest

/-- Read arguments; `pending` is an option that waits for its value. -/
def read : Option Setting → Draft → List String → Option Draft
  | none, d, [] => some d
  | some _, _, [] => none
  | some which, d, value :: rest =>
      if value.toList.head? = some '-' then none
      else (d.assign which value).bind fun next => read none next rest
  | none, d, argument :: rest =>
      match classify argument with
      | .minterm text => (d.addMinterm text).bind fun next => read none next rest
      | .setting which none => read (some which) d rest
      | .setting which (some value) => (d.assign which value).bind fun next => read none next rest
      | .switch which => (d.turnOn which).bind fun next => read none next rest
      | .separator => d.readMinterms rest
      | .unknown => none

end Draft

namespace Request

/-- The number of variables where none is given. -/
def defaultVars : Nat := 4

/-- The request of a command line, if that is well formed. -/
def ofArguments? (arguments : List String) : Option Request :=
  (Draft.read none {} arguments).map fun d =>
    { minterms := d.minterms, vars := d.vars.getD defaultVars,
      budget := d.budget.getD Config.defaultLimit, policy := d.policy.getD .fail,
      chart := d.chart, debug := d.debug }

end Request

/-- A report on one line, with the number of the only thread and without the time of day. -/
def Report.line (report : Report) : String :=
  "[" ++ report.level.label ++ "] (1) " ++ report.target ++ ": " ++ report.message ++ "\n"

/-- What the program answers to a command line. -/
def answer (arguments : List String) : Answer :=
  run Request.ofArguments? (fun _ => Report.line) arguments

end CommandLine

end TwoLevel
