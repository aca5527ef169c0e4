/-
# TwoLevel.Trace.Chart — the prime implicant chart

The chart has a title, a row of the minterms and one row for each prime
implicant: essential ones tagged `*`, then the candidates, tagged `+` if chosen.
A mark stands under the last digit of its minterm, `x` if the implicant covers it
and `.` if not. If the essential implicants leave minterms uncovered, the
combinations follow, at most eight of them with their cost.
-/
import TwoLevel.Expression.Printer
import TwoLevel.Text.Bracketed
import TwoLevel.Trace

namespace TwoLevel

set_option autoImplicit false

namespace Trace

/-- How many combinations the chart lists. -/
def listed : Nat := 8

/-- A minterm in decimal. -/
def mintermText (m : Word) : List Char := Nat.toDigits 10 m.toNat

/-- The mark of an implicant in the column of a minterm, as wide as the minterm. -/
def markText (a : Implicant) (m : Word) : List Char :=
  List.replicate ((mintermText m).length - 1) ' ' ++ [if a.covers m then 'x' else '.']

def titleLine (t : Trace) : List Char :=
  (s!"Prime implicant chart ({t.arity.size} variables, " ++
    s!"{t.minterms.length} minterms, {t.primes.length} primes):").toList

/-- The row of the minterms, each behind a space. -/
def mintermLine (t : Trace) : List Char :=
  List.replicate 4 ' ' ++ List.replicate t.arity.size ' ' ++ [' '] ++
    t.minterms.flatMap fun m => ' ' :: mintermText m

/-- The row of an implicant: tag, pattern, a mark for every minterm, and term. -/
def implicantLine (t : Trace) (tag : Char) (a : Implicant) : List Char :=
  [' ', ' ', tag, ' '] ++ a.patternBelow t.arity.size ++ [' '] ++
    (t.minterms.flatMap fun m => ' ' :: markText a m) ++ [' ', ' '] ++ a.term t.arity.size

/-- The rows of all prime implicants. -/
def implicantLines (t : Trace) : List (List Char) :=
  t.essential.map (t.implicantLine '*') ++
    t.candidates.zipIdx.map fun (a, i) =>
      t.implicantLine (if t.chosen.contains i then '+' else ' ') a

/-- A combination and its cost. -/
def combinationLine (combination : IndexSet) (cost : Cost) : List Char :=
  ("  " ++ Text.bracketed combination.toList ++ s!"  cost {cost.weighted} (" ++ cost.text ++
    ")").toList

/-- How the minterms that the essential implicants leave were covered. -/
def coveringLines (t : Trace) : List (List Char) :=
  if t.uncovered.isEmpty then []
  else
    let method := if t.greedy then "Greedy:" else "Petrick:"
    let total := t.combinations.length
    [("Uncovered after essentials: " ++ Text.bracketed t.uncovered).toList,
      (method ++ s!" {total} combinations, chose " ++ Text.bracketed t.chosen.toList).toList] ++
    ((t.combinations.zip t.costs).take listed).map (fun entry => combinationLine entry.1 entry.2) ++
    if listed < total then [s!"  ... {total - listed} more".toList] else []

/-- The lines of the chart. -/
def chartLines (t : Trace) : List (List Char) :=
  t.titleLine :: t.mintermLine :: (t.implicantLines ++ t.coveringLines)

/-- The chart, every line ended by a line feed. -/
def chart (t : Trace) : String := String.ofList (t.chartLines.flatMap (· ++ ['\n']))

end Trace

end TwoLevel
