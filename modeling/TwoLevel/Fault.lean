/-
# TwoLevel.Fault — what can go wrong, and how it is worded

`SyntaxError` lists the ways a text fails to be an expression, `Error` the ways a
well-posed request fails, `Misuse` the requests that break an operation's stated
bounds. `Failure` is either an error or a misuse. Each has its wording in
`message` and nowhere else.
-/
import TwoLevel.Variable

namespace TwoLevel

set_option autoImplicit false

/-- Why a text is not a sum of products. -/
inductive SyntaxError where
  /-- A product has no characters. -/
  | emptyTerm
  /-- `name` stands for no variable of the function. -/
  | unknownVariable (name term : String)
  /-- The variable called `name` already occurs in the product. -/
  | repeatedVariable (name term : String)
  deriving DecidableEq, Repr

/-- Why a request has no answer. -/
inductive Error where
  | noVariables
  | tooManyVariables (count : Nat)
  | mintermOutOfRange (minterm : Word) (count : Nat)
  /-- More than `budget` combinations were left after a step of the covering. -/
  | coveringBudgetExceeded (combinations budget : Nat)
  /-- No candidate covers `minterm`. -/
  | uncoverable (minterm : Word)
  | invalidExpression (cause : SyntaxError)
  deriving DecidableEq, Repr

/-- How a request breaks the bounds of the operation it is made of. -/
inductive Misuse where
  | tooManyVariables
  | bitOutOfRange (bit count : Nat)
  | variableOutOfRange (owner : Variable) (count : Nat)
  | tableTooLarge
  | indexOutOfBounds
  deriving DecidableEq, Repr

/-- The ways a request ends without an answer. -/
inductive Failure where
  | error (cause : Error)
  | misuse (cause : Misuse)
  deriving DecidableEq, Repr

def SyntaxError.message : SyntaxError → String
  | .emptyTerm => "empty term"
  | .unknownVariable name term => s!"unknown variable '{name}' in '{term}'"
  | .repeatedVariable name term => s!"variable '{name}' repeated in '{term}'"

def Error.message : Error → String
  | .noVariables => "number of variables must be positive"
  | .tooManyVariables count => s!"too many variables: {count} (at most 64 are supported)"
  | .mintermOutOfRange minterm count =>
      s!"minterm {minterm} is out of range for {count} variables"
  | .coveringBudgetExceeded combinations budget =>
      s!"covering step exceeded its budget: {combinations} combinations (budget {budget})"
  | .uncoverable minterm => s!"minterm {minterm} is not covered by any candidate implicant"
  | .invalidExpression cause => "invalid expression: " ++ cause.message

def Misuse.message : Misuse → String
  | .tooManyVariables => "At most 64 variables are supported"
  | .bitOutOfRange bit count => s!"Bit {bit} is out of range for {count} variables"
  | .variableOutOfRange owner count =>
      "Variable " ++ String.ofList owner.name ++ s!" is out of range for {count} variables"
  | .tableTooLarge => "Truth tables are limited to 24 variables"
  | .indexOutOfBounds => "index out of bounds"

def Failure.message : Failure → String
  | .error cause => cause.message
  | .misuse cause => cause.message

end TwoLevel
