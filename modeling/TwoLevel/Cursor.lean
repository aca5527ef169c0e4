/-
# TwoLevel.Cursor — the members of an index set, one call after another

A cursor stands at a word of an index set and keeps what it has not yet listed of it. `next`
lists the lowest position that is left and clears it; when nothing is left of a word, it goes
on to the words after it. `after` is the cursor that a number of calls leave.

`IndexSet.toList` lists the members of a set at once. A cursor that starts at the first word
lists the same indices, one a call.
-/
import TwoLevel.IndexSet

namespace TwoLevel

set_option autoImplicit false

namespace Word

/-- How many clear positions there are below the lowest set one; 64 if none is set. -/
def trailingZeros (w : Word) : Nat := ((List.range 64).find? w.bit).getD 64

/-- The word without its lowest set position. -/
def clearLowest (w : Word) : Word := w &&& (w - 1)

end Word

/-- A place in a list of words. -/
structure Cursor where
  /-- The index of the word. -/
  index : Nat
  /-- What has not been listed of it. -/
  current : Word
  /-- The words after it. -/
  rest : List Word
  deriving Repr

namespace Cursor

/-- The lowest index that is left from this place on, with the cursor behind it. -/
def nextFrom (index : Nat) (current : Word) : List Word → Option Nat × Cursor
  | [] =>
      if current = 0 then (none, ⟨index + 1, current, []⟩)
      else (some (index * 64 + current.trailingZeros), ⟨index, current.clearLowest, []⟩)
  | w :: ws =>
      if current = 0 then nextFrom (index + 1) w ws
      else (some (index * 64 + current.trailingZeros), ⟨index, current.clearLowest, w :: ws⟩)

/-- The next index, if there is one, with the cursor behind it. -/
def next (c : Cursor) : Option Nat × Cursor := nextFrom c.index c.current c.rest

/-- The cursor that this many calls leave. -/
def after : Nat → Cursor → Cursor
  | 0, c => c
  | k + 1, c => after k c.next.2

end Cursor

/-- A cursor at the first word. -/
def IndexSet.cursor (s : IndexSet) : Cursor := ⟨0, s.words.headD 0, s.words.tail⟩

end TwoLevel
