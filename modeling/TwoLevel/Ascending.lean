/-
# TwoLevel.Ascending — strictly ascending lists of words

A finite set of words is kept as its strictly ascending list. `insert` puts one
word in its place and leaves a word that is already there alone, and `ofList`
builds the list of any collection so. `union` goes through two lists side by side,
one step for each word. `mem_insert`, `mem_ofList` and `mem_union` read membership,
`pairwise_insert`, `pairwise_ofList` and `pairwise_union` the order.
-/
import TwoLevel.Word

namespace TwoLevel

set_option autoImplicit false

namespace Ascending

/-- Insert `x` before the first larger member, unless it is a member itself. -/
def insert (x : Word) : List Word → List Word
  | [] => [x]
  | y :: ys => if x < y then x :: y :: ys else if x = y then y :: ys else y :: insert x ys

/-- The ascending list of the words that occur in `xs`. -/
def ofList (xs : List Word) : List Word := xs.foldr insert []

/-- What is below `x` in a list, then `x`, then what `others` makes of the rest, in
which `x` itself is skipped. -/
def placing (x : Word) (others : List Word → List Word) : List Word → List Word
  | [] => x :: others []
  | y :: ys =>
      if x < y then x :: others (y :: ys)
      else if x = y then x :: others ys
      else y :: placing x others ys

/-- The members of both lists; ascending if both are. -/
def union : List Word → List Word → List Word
  | [], ys => ys
  | x :: xs, ys => placing x (union xs) ys

@[simp] theorem mem_insert {x a : Word} {ys : List Word} :
    a ∈ insert x ys ↔ a = x ∨ a ∈ ys := by
  induction ys with
  | nil => simp [insert]
  | cons y ys ih =>
    unfold insert
    split
    · simp
    · split
      · next _ same => subst same; simp
      · simp [ih, or_left_comm]

@[simp] theorem mem_ofList {a : Word} {xs : List Word} : a ∈ ofList xs ↔ a ∈ xs := by
  induction xs with
  | nil => simp [ofList]
  | cons x xs ih =>
    have step : ofList (x :: xs) = insert x (ofList xs) := rfl
    rw [step, mem_insert, ih, List.mem_cons]

theorem mem_placing {x a : Word} {others : List Word → List Word} {more : List Word}
    (rest : ∀ ys, a ∈ others ys ↔ a ∈ more ∨ a ∈ ys) (ys : List Word) :
    a ∈ placing x others ys ↔ a ∈ x :: more ∨ a ∈ ys := by
  induction ys with
  | nil => simp [placing, rest]
  | cons y ys ih =>
    unfold placing
    split
    · simp [rest, or_assoc]
    · split
      · next _ same => subst same; grind
      · grind

@[simp] theorem mem_union {a : Word} {xs ys : List Word} :
    a ∈ union xs ys ↔ a ∈ xs ∨ a ∈ ys := by
  induction xs generalizing ys with
  | nil => simp [union]
  | cons x xs ih => exact mem_placing (fun _ => ih) ys

theorem pairwise_insert {x : Word} {ys : List Word} (ordered : ys.Pairwise (· < ·)) :
    (insert x ys).Pairwise (· < ·) := by
  induction ys with
  | nil => simp [insert]
  | cons y ys ih =>
    obtain ⟨first, rest⟩ := List.pairwise_cons.mp ordered
    unfold insert
    split
    · next below =>
      refine List.pairwise_cons.mpr ⟨fun a member => ?_, ordered⟩
      rcases List.mem_cons.mp member with rfl | later
      · exact below
      · exact UInt64.lt_trans below (first a later)
    · split
      · exact ordered
      · next notBelow distinct =>
        refine List.pairwise_cons.mpr ⟨fun a member => ?_, ih rest⟩
        rcases mem_insert.mp member with rfl | later
        · exact UInt64.lt_of_le_of_ne (UInt64.not_lt.mp notBelow) (Ne.symm distinct)
        · exact first a later

theorem pairwise_ofList (xs : List Word) : (ofList xs).Pairwise (· < ·) := by
  induction xs with
  | nil => exact List.Pairwise.nil
  | cons x xs ih => exact pairwise_insert ih

theorem pairwise_union {xs ys : List Word} (left : xs.Pairwise (· < ·))
    (right : ys.Pairwise (· < ·)) : (union xs ys).Pairwise (· < ·) := by
  induction xs generalizing ys with
  | nil => exact right
  | cons x xs ih =>
    obtain ⟨above, later⟩ := List.pairwise_cons.mp left
    show (placing x (union xs) ys).Pairwise (· < ·)
    induction ys with
    | nil =>
      refine List.pairwise_cons.mpr ⟨fun a member => ?_, ih later right⟩
      exact above a (by simpa using member)
    | cons y ys along =>
      obtain ⟨first, rest⟩ := List.pairwise_cons.mp right
      unfold placing
      split
      · next below =>
        refine List.pairwise_cons.mpr ⟨fun a member => ?_, ih later right⟩
        rcases mem_union.mp member with old | new
        · exact above a old
        · rcases List.mem_cons.mp new with rfl | further
          · exact below
          · exact UInt64.lt_trans below (first a further)
      · split
        · next _ same =>
          subst same
          refine List.pairwise_cons.mpr ⟨fun a member => ?_, ih later rest⟩
          exact (mem_union.mp member).elim (above a) (first a)
        · next notBelow distinct =>
          have below : y < x :=
            UInt64.lt_of_le_of_ne (UInt64.not_lt.mp notBelow) (Ne.symm distinct)
          refine List.pairwise_cons.mpr ⟨fun a member => ?_, along rest⟩
          rcases (mem_placing (fun _ => mem_union) ys).mp member with own | new
          · rcases List.mem_cons.mp own with rfl | further
            · exact below
            · exact UInt64.lt_trans below (above a further)
          · exact first a new

end Ascending

end TwoLevel
