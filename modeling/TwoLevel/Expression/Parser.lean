/-
# TwoLevel.Expression.Parser — reading sums of products

The grammar, blanks around a text and around each of its pieces ignored:

* a text is `0`, the empty sum, or products separated by `+`;
* a product is `1`, the empty product, or one or more literals;
* a literal is a token, complemented if an apostrophe follows it;
* a token is `x` with all decimal digits after it, or any other single character.

`Token.scan` cuts a product into literals, `Product.conjoin` gives them their
meaning and refuses the first token that names no variable of the function or
one that has occurred already. `Expression.parse` reports the first bad product.
-/
import TwoLevel.Expression
import TwoLevel.Fault
import TwoLevel.Text.Blank

namespace TwoLevel

set_option autoImplicit false

/-- A literal as it is written: the name, and whether an apostrophe follows. -/
structure Token where
  name : List Char
  complemented : Bool
  deriving DecidableEq, Repr

namespace Token

/-- Whether `c` continues a token that reads `name` so far. -/
def extendedBy (name : List Char) (c : Char) : Bool := name.head? == some 'x' && c.isDigit

/-- Cut a text into literals; `pending` is the name of a token that has begun. -/
def scanFrom : Option (List Char) → List Char → List Token
  | none, [] => []
  | some name, [] => [⟨name, false⟩]
  | none, c :: rest => scanFrom (some [c]) rest
  | some name, c :: rest =>
      if c = '\'' then ⟨name, true⟩ :: scanFrom none rest
      else if extendedBy name c then scanFrom (some (name ++ [c])) rest
      else ⟨name, false⟩ :: scanFrom (some [c]) rest

/-- The literals of a product text. -/
def scan (text : List Char) : List Token := scanFrom none text

/-- The variable a token names, if it is one of the first `count`. -/
def resolve? (token : Token) (count : Nat) : Option Variable :=
  match Variable.ofName? token.name with
  | some v => if v.position.toNat < count then some v else none
  | none => none

end Token

namespace Product

/-- Conjoin the literals to a product, from left to right. `term` is the text
that faults quote. -/
def conjoin (term : List Char) (count : Nat) : Product → List Token → Except SyntaxError Product
  | product, [] => .ok product
  | product, token :: rest =>
      match token.resolve? count with
      | none => .error (.unknownVariable (String.ofList token.name) (String.ofList term))
      | some v =>
          let position := Word.single (v.bit count).toNat
          if product.care &&& position ≠ 0 then
            .error (.repeatedVariable (String.ofList token.name) (String.ofList term))
          else conjoin term count (product.withLiteral position (!token.complemented)) rest

/-- The product a trimmed text stands for. -/
def parse (term : List Char) (count : Nat) : Except SyntaxError Product :=
  if term = ['1'] then .ok one
  else if term = [] then .error .emptyTerm
  else conjoin term count one (Token.scan term)

/-- The products of several texts, or the fault of the first bad one. -/
def parseAll (count : Nat) : List (List Char) → Except SyntaxError (List Product)
  | [] => .ok []
  | piece :: rest =>
      match parse (Text.trim piece) count with
      | .error fault => .error fault
      | .ok product =>
          match parseAll count rest with
          | .error fault => .error fault
          | .ok products => .ok (product :: products)

end Product

namespace Expression

/-- The expression of `count` variables that a list of characters stands for. -/
def parseChars (text : List Char) (count : Nat) : Except SyntaxError Expression :=
  let trimmed := Text.trim text
  if trimmed = ['0'] then .ok ⟨[]⟩
  else
    match Product.parseAll count (Text.pieces '+' trimmed) with
    | .error fault => .error fault
    | .ok terms => .ok ⟨terms⟩

/-- The expression of `count` variables that a text stands for. -/
def parse (text : String) (count : Nat) : Except SyntaxError Expression :=
  parseChars text.toList count

end Expression

end TwoLevel
