/-
# TwoLevel.Text.Bracketed — lists as text

A list of numbers is written in brackets, its entries separated by a comma and a
space: `[0, 1, 2]`.
-/
namespace TwoLevel

set_option autoImplicit false

namespace Text

/-- The entries of a list in brackets. -/
def bracketed {α : Type} [ToString α] (entries : List α) : String :=
  "[" ++ ", ".intercalate (entries.map toString) ++ "]"

end Text

end TwoLevel
