/-
# TwoLevel.Covering.Paths — many index lists as one tree

A collection of index lists in which lists that begin alike share their beginning.
Asking whether one of them stays within a set (`anyWithin`) leaves a branch as soon
as its index is not a member, so that most lists are never looked at. `lists` is the
view of a collection; `mem_insert`, `contains_iff` and `anyWithin_iff` say what the
operations do to it.
-/
import TwoLevel.IndexSet

namespace TwoLevel

set_option autoImplicit false

namespace Covering

/-- A collection of index lists. -/
inductive Paths where
  | none
  /-- The empty list, and others. -/
  | ending (others : Paths)
  /-- The lists that begin with `index`, each without it, and others. -/
  | step (index : Nat) (onward others : Paths)
  deriving DecidableEq, Repr

namespace Paths

/-- The lists of a collection. -/
def lists : Paths → List (List Nat)
  | .none => []
  | .ending others => [] :: lists others
  | .step i onward others => (lists onward).map (i :: ·) ++ lists others

/-- The collection of one list. -/
def single : List Nat → Paths
  | [] => .ending .none
  | i :: rest => .step i (single rest) .none

/-- The collection with one more list. -/
def insert : Paths → List Nat → Paths
  | .none, path => single path
  | .ending others, [] => .ending others
  | .ending others, i :: rest => .ending (insert others (i :: rest))
  | .step j onward others, [] => .step j onward (insert others [])
  | .step j onward others, i :: rest =>
      if j = i then .step j (insert onward rest) others
      else .step j onward (insert others (i :: rest))

/-- Whether a list is in the collection. -/
def contains : Paths → List Nat → Bool
  | .none, _ => false
  | .ending _, [] => true
  | .ending others, i :: rest => contains others (i :: rest)
  | .step _ _ others, [] => contains others []
  | .step j onward others, i :: rest =>
      j == i && contains onward rest || contains others (i :: rest)

/-- Whether one of the lists has fewer than `limit` indices, all of them in `s`. -/
def anyWithin (s : IndexSet) : Paths → Nat → Bool
  | .none, _ => false
  | .ending others, limit => 0 < limit || anyWithin s others limit
  | .step i onward others, limit =>
      s.contains i && anyWithin s onward (limit - 1) || anyWithin s others limit

@[simp] theorem lists_single (path : List Nat) : (single path).lists = [path] := by
  induction path with
  | nil => rfl
  | cons i rest ih => simp [single, lists, ih]

@[simp] theorem mem_insert {t : Paths} {path other : List Nat} :
    other ∈ (t.insert path).lists ↔ other = path ∨ other ∈ t.lists := by
  induction t generalizing path other with
  | none => simp [insert, lists]
  | ending others ih =>
    cases path with
    | nil => simp [insert, lists]
    | cons i rest => simp [insert, lists, ih, or_left_comm]
  | step j onward others ihOnward ih =>
    cases path with
    | nil => simp [insert, lists, ih, or_left_comm]
    | cons i rest =>
      unfold insert
      split
      · next same => subst same; cases other <;> grind [lists]
      · simp [lists, ih, or_left_comm]

theorem contains_iff {t : Paths} {path : List Nat} :
    t.contains path = true ↔ path ∈ t.lists := by
  induction t generalizing path with
  | none => simp [contains, lists]
  | ending others ih => cases path <;> simp [contains, lists, ih]
  | step j onward others ihOnward ih =>
    cases path with
    | nil => simp [contains, lists, ih]
    | cons i rest => grind [contains, lists]

theorem anyWithin_iff {s : IndexSet} {t : Paths} {limit : Nat} :
    t.anyWithin s limit = true ↔
      ∃ path ∈ t.lists, path.length < limit ∧ ∀ i ∈ path, s.contains i = true := by
  induction t generalizing limit with
  | none => simp [anyWithin, lists]
  | ending others ih => simp [anyWithin, lists, ih]
  | step j onward others ihOnward ih =>
    simp only [anyWithin, lists, Bool.or_eq_true, Bool.and_eq_true, ihOnward, ih, List.mem_append,
      List.mem_map]
    constructor
    · rintro (⟨member, path, known, short, inside⟩ | ⟨path, known, rest⟩)
      · refine ⟨j :: path, .inl ⟨path, known, rfl⟩, by simp; omega, ?_⟩
        simpa using ⟨member, inside⟩
      · exact ⟨path, .inr known, rest⟩
    · rintro ⟨path, ⟨tail, known, rfl⟩ | known, short, inside⟩
      · simp only [List.length_cons, List.forall_mem_cons] at short inside
        exact .inl ⟨inside.1, tail, known, by omega, inside.2⟩
      · exact .inr ⟨path, known, short, inside⟩

end Paths

end Covering

end TwoLevel
