/-
# TwoLevel.Expression.Printer — the text of a cover

A product term is written as its literals, most significant variable first, a
complemented one with an apostrophe after its name; the term without literals is
`1`. Terms are joined by ` + `, in cover order. An empty cover has the empty text:
what a constant function is called is not the printer's business.
-/
import TwoLevel.Implicant
import TwoLevel.Variable

namespace TwoLevel

set_option autoImplicit false

namespace Implicant

/-- The literals on positions below `k`, among `count` variables. -/
def literalsBelow (a : Implicant) (count : Nat) : Nat → List Char
  | 0 => []
  | k + 1 =>
      if a.mask.bit k then a.literalsBelow count k
      else
        (Variable.ofBit k count).name ++ (if a.base.bit k then [] else ['\'']) ++
          a.literalsBelow count k

/-- The text of the term. -/
def term (a : Implicant) (count : Nat) : List Char :=
  match a.literalsBelow count count with
  | [] => ['1']
  | literals => literals

end Implicant

/-- The terms of a cover, joined by ` + `. -/
def sumText (cover : List Implicant) (count : Nat) : List Char :=
  [' ', '+', ' '].intercalate (cover.map (·.term count))

/-- The text of a cover. -/
def formatCover (cover : List Implicant) (count : Nat) : String :=
  String.ofList (sumText cover count)

end TwoLevel
