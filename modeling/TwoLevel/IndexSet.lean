/-
# TwoLevel.IndexSet — finite sets of indices, packed into words

Index `64 * k + b` is a member when position `b` of word `k` is set; words past
the end of the list count as zero, and the list grows when a member needs it.
The number of members is kept beside the words, and `size_eq` ties it to them.
`contains` is the view of a set, `toList` its members in ascending order
(`contains_insert`, `mem_toList`).
Equality compares the words without their trailing zeros (`significant`), so
capacity and growth do not matter.
-/
import TwoLevel.Word

namespace TwoLevel

set_option autoImplicit false

namespace Packed

/-- Whether position `b` of word `k` is set. -/
def get : List Word → Nat → Nat → Bool
  | [], _, _ => false
  | w :: _, 0, b => w.bit b
  | _ :: ws, k + 1, b => get ws k b

/-- Set position `b` of word `k`, with zero words up to it if there are too few. -/
def set : List Word → Nat → Nat → List Word
  | [], 0, b => [Word.single b]
  | [], k + 1, b => 0 :: set [] k b
  | w :: ws, 0, b => (w ||| Word.single b) :: ws
  | w :: ws, k + 1, b => w :: set ws k b

/-- How many positions are set in all words. -/
def count : List Word → Nat
  | [] => 0
  | w :: ws => w.popCount + count ws

/-- The set positions, ascending, the first word's counted from `start`. -/
def membersFrom (start : Nat) : List Word → List Nat
  | [] => []
  | w :: ws => (w.bits.map (start + ·)) ++ membersFrom (start + 64) ws

/-- The words up to the last one that is not zero. -/
def significant : List Word → List Word
  | [] => []
  | w :: ws =>
      let rest := significant ws
      if rest = [] ∧ w = 0 then [] else w :: rest

/-- Whether every position set in the first list is set in the second. -/
def within : List Word → List Word → Bool
  | [], _ => true
  | w :: ws, [] => w == 0 && within ws []
  | w :: ws, v :: vs => w &&& ~~~v == 0 && within ws vs

/-- Setting a position makes it a member and changes no other position. -/
theorem get_set (ws : List Word) (k k' : Nat) {b : Nat} (b' : Nat) (below : b < 64) :
    get (set ws k b) k' b' = (get ws k' b' || decide (k = k' ∧ b = b')) := by
  induction k generalizing ws k' with
  | zero =>
    cases ws with
    | nil => cases k' <;> simp [set, get, Word.bit_single below]
    | cons w ws => cases k' <;> simp [set, get, Word.bit_single below]
  | succ k ih =>
    cases ws with
    | nil =>
      cases k' with
      | zero => simp [set, get]
      | succ k' => simp [set, get, ih [] k']
    | cons w ws =>
      cases k' with
      | zero => simp [set, get]
      | succ k' => simp [set, get, ih ws k']

theorem get_replicate_zero (k k' b : Nat) : get (List.replicate k 0) k' b = false := by
  induction k generalizing k' with
  | zero => rfl
  | succ k ih =>
    cases k' with
    | zero => simp [List.replicate_succ, get]
    | succ k' => simp [List.replicate_succ, get, ih k']

theorem get_eq_false_of_ge (ws : List Word) (k : Nat) {b : Nat} (beyond : 64 ≤ b) :
    get ws k b = false := by
  induction ws generalizing k with
  | nil => rfl
  | cons w ws ih =>
    cases k with
    | zero => exact Word.bit_eq_false_of_ge w beyond
    | succ k => exact ih k

/-- The listed positions are the set ones, each shifted by the start. -/
theorem mem_membersFrom {ws : List Word} {start i : Nat} :
    i ∈ membersFrom start ws ↔ ∃ k b, get ws k b = true ∧ i = start + 64 * k + b := by
  induction ws generalizing start with
  | nil => simp [membersFrom, get]
  | cons w ws ih =>
    simp only [membersFrom, List.mem_append, List.mem_map, Word.mem_bits, ih]
    constructor
    · rintro (⟨b, set, rfl⟩ | ⟨k, b, set, rfl⟩)
      · exact ⟨0, b, set, by omega⟩
      · exact ⟨k + 1, b, set, by omega⟩
    · rintro ⟨k, b, set, rfl⟩
      cases k with
      | zero => exact Or.inl ⟨b, set, by omega⟩
      | succ k => exact Or.inr ⟨k, b, set, by omega⟩

theorem count_replicate_zero (k : Nat) : count (List.replicate k 0) = 0 := by
  induction k with
  | zero => rfl
  | succ k ih =>
    have empty : Word.popCount 0 = 0 := by decide
    simp [List.replicate_succ, count, ih, empty]

/-- Setting a position adds one to the count exactly when it was clear. -/
theorem count_set (ws : List Word) (k : Nat) {b : Nat} (below : b < 64) :
    count (set ws k b) = count ws + if get ws k b then 0 else 1 := by
  have empty : Word.popCount 0 = 0 := by decide
  induction k generalizing ws with
  | zero =>
    cases ws with
    | nil =>
      have grown := Word.popCount_or_single 0 below
      simpa [set, count, get, empty] using grown
    | cons w ws =>
      cases known : w.bit b <;>
        simp [set, count, get, Word.popCount_or_single w below, known, Nat.add_right_comm]
  | succ k ih =>
    cases ws with
    | nil => simpa [set, count, get, empty] using ih []
    | cons w ws =>
      cases known : get ws k b <;> simp [set, count, get, ih ws, known, Nat.add_assoc]

end Packed

/-- A finite set of indices. -/
structure IndexSet where
  words : List Word
  /-- The number of members. -/
  size : Nat
  size_eq : size = Packed.count words
  deriving Repr

namespace IndexSet

/-- The empty set with room for indices below `capacity`. -/
def withCapacity (capacity : Nat) : IndexSet :=
  ⟨List.replicate ((capacity + 63) / 64) 0, 0, (Packed.count_replicate_zero _).symm⟩

def empty : IndexSet := ⟨[], 0, rfl⟩

instance : Inhabited IndexSet := ⟨empty⟩

def isEmpty (s : IndexSet) : Bool := s.size == 0

def contains (s : IndexSet) (i : Nat) : Bool := Packed.get s.words (i / 64) (i % 64)

/-- The set with `i` as one more member; the size grows if `i` is new. -/
def insert (s : IndexSet) (i : Nat) : IndexSet where
  words := Packed.set s.words (i / 64) (i % 64)
  size := if s.contains i then s.size else s.size + 1
  size_eq := by
    rw [Packed.count_set _ _ (Nat.mod_lt _ (by decide)), ← s.size_eq]
    cases known : s.contains i <;> rw [contains] at known <;> simp [known]

/-- `insert`, together with whether the index is new. -/
def insertNew (s : IndexSet) (i : Nat) : Bool × IndexSet := (!s.contains i, s.insert i)

/-- The set with all indices of a list as further members. -/
def extend (s : IndexSet) (indices : List Nat) : IndexSet := indices.foldl insert s

def ofList (indices : List Nat) : IndexSet := empty.extend indices

/-- The members, ascending. -/
def toList (s : IndexSet) : List Nat := Packed.membersFrom 0 s.words

/-- Whether every member of `s` is a member of `t`; a larger set is refused by
its size alone. -/
def isSubset (s t : IndexSet) : Bool := s.size ≤ t.size && Packed.within s.words t.words

/-- The words that equality compares and that are hashed. -/
def significant (s : IndexSet) : List Word := Packed.significant s.words

instance : BEq IndexSet := ⟨fun s t => s.size == t.size && s.significant == t.significant⟩

instance : Hashable IndexSet := ⟨fun s => hash s.significant⟩

/-- The entries of a list at the members of a set, ascending; members past the
end of the list have none. -/
def pick {α : Type} (s : IndexSet) (entries : List α) : List α :=
  s.toList.filterMap (entries[·]?)

/-- Whether every member is the position of an entry of a list of this length. -/
def allBelow (s : IndexSet) (length : Nat) : Bool := s.toList.all (· < length)

@[simp] theorem contains_empty (i : Nat) : empty.contains i = false := rfl

@[simp] theorem contains_withCapacity (capacity i : Nat) :
    (withCapacity capacity).contains i = false :=
  Packed.get_replicate_zero _ _ _

@[simp] theorem contains_insert (s : IndexSet) (i j : Nat) :
    (s.insert i).contains j = (s.contains j || decide (i = j)) := by
  have same : (i / 64 = j / 64 ∧ i % 64 = j % 64) = (i = j) := by
    apply propext
    constructor
    · intro parts; omega
    · rintro rfl; exact ⟨rfl, rfl⟩
  simp only [contains, insert, Packed.get_set _ _ _ _ (Nat.mod_lt i (by decide : 0 < 64)), same]

@[simp] theorem mem_toList {s : IndexSet} {i : Nat} : i ∈ s.toList ↔ s.contains i = true := by
  simp only [toList, Packed.mem_membersFrom, contains]
  constructor
  · rintro ⟨k, b, set, rfl⟩
    have below : b < 64 := by
      apply Nat.lt_of_not_le
      intro beyond
      simp [Packed.get_eq_false_of_ge _ _ beyond] at set
    rw [show (0 + 64 * k + b) / 64 = k by omega, show (0 + 64 * k + b) % 64 = b by omega]
    exact set
  · intro set
    exact ⟨i / 64, i % 64, set, by omega⟩

/-- For each set of a list, whether no earlier one has the same members. -/
def firstSeen (sets : List IndexSet) : List Bool :=
  sets.zipIdx.map fun (s, position) => !(sets.take position).contains s

end IndexSet

end TwoLevel
