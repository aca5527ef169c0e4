/-
# TwoLevel.Proofs.Registers — index sets are finite sets

A program builds index sets, copies them and adds to them, in any number of registers. Run on
index sets and on finite sets, it leaves in every register an index set that stands for the
finite set there (`Registers.run_standsFor`).

The words of a set are not determined by its members: zeros at the end come and go with
capacities and with the order of growth. What a caller can see is. An index set stands for its
members (`IndexSet.standsFor_members`), and comparisons of words are comparisons of members
(`isSubset_iff`, `significant_eq_iff`, `beq_iff`), since words without the zeros at their end are
determined by what is set in them (`Packed.significant_eq_iff`). Of a step it remains to show
that it writes the right members (`Registers.members_value`).

A `Cursor` has a list of what is `left` of it, and a call takes the first entry of this list
(`Cursor.next_spec`). What is left of a word begins with its lowest set position, and clearing
this position leaves the others (`Word.bits_eq_cons`).
-/
import Mathlib.Data.Nat.Bitwise
import Mathlib.Logic.Function.Basic
import TwoLevel.Cursor
import TwoLevel.Proofs.Members
import TwoLevel.Proofs.Positions

namespace TwoLevel

set_option autoImplicit false

/-! ## Comparing words -/

namespace Packed

theorem get_zero (ws : List Word) (b : Nat) : get ws 0 b = (ws.headD 0).bit b := by
  cases ws with
  | nil => exact (Word.bit_zero b).symm
  | cons w ws => rfl

theorem get_succ (ws : List Word) (k b : Nat) : get ws (k + 1) b = get ws.tail k b := by
  cases ws <;> rfl

theorem within_cons (w : Word) (ws vs : List Word) :
    within (w :: ws) vs = (w &&& ~~~(vs.headD 0) == 0 && within ws vs.tail) := by
  cases vs with
  | nil =>
      have all : w &&& ~~~0 = w := Word.eq_of_bit_eq fun i => by simp
      rw [within, List.headD_nil, all, List.tail_nil]
  | cons v vs => rfl

theorem within_iff {ws vs : List Word} :
    within ws vs = true ↔ ∀ k b, get ws k b = true → get vs k b = true := by
  induction ws generalizing vs with
  | nil => simp [within, get]
  | cons w ws ih =>
      have first : w &&& ~~~(vs.headD 0) = 0 ↔ ∀ b, w.bit b = true → (vs.headD 0).bit b = true := by
        simp [Word.eq_iff_bit]
      rw [within_cons, Bool.and_eq_true, beq_iff_eq, first, ih]
      constructor
      · rintro ⟨low, high⟩ k b set
        cases k with
        | zero => rw [get_zero]; exact low b set
        | succ k => rw [get_succ]; exact high k b set
      · intro all
        refine ⟨fun b set => ?_, fun k b set => ?_⟩
        · rw [← get_zero]; exact all 0 b set
        · rw [← get_succ]; exact all (k + 1) b set

theorem get_significant (ws : List Word) (k b : Nat) : get (significant ws) k b = get ws k b := by
  induction ws generalizing k with
  | nil => rfl
  | cons w ws ih =>
      unfold significant
      by_cases dropped : significant ws = [] ∧ w = 0
      · rw [if_pos dropped]
        obtain ⟨nothing, rfl⟩ := dropped
        cases k with
        | zero => exact (Word.bit_zero b).symm
        | succ k =>
            have clear := ih k
            rw [nothing] at clear
            exact clear
      · rw [if_neg dropped]
        cases k with
        | zero => rfl
        | succ k => exact ih k

theorem significant_eq_nil {ws : List Word} (clear : ∀ k b, get ws k b = false) :
    significant ws = [] := by
  induction ws with
  | nil => rfl
  | cons w ws ih =>
      have zero : w = 0 := Word.eq_of_bit_eq fun b => by rw [Word.bit_zero]; exact clear 0 b
      unfold significant
      exact if_pos ⟨ih fun k b => clear (k + 1) b, zero⟩

/-- Two lists of words are the same up to zeros at the end when the same is set in them. -/
theorem significant_eq_iff {ws vs : List Word} :
    significant ws = significant vs ↔ ∀ k b, get ws k b = get vs k b := by
  constructor
  · intro same k b
    rw [← get_significant, same, get_significant]
  · intro same
    induction ws generalizing vs with
    | nil => exact (significant_eq_nil fun k b => (same k b).symm).symm
    | cons w ws ih =>
        cases vs with
        | nil => exact significant_eq_nil same
        | cons v vs =>
            obtain rfl : w = v := Word.eq_of_bit_eq fun b => same 0 b
            have rest : significant ws = significant vs := ih fun k b => same (k + 1) b
            unfold significant
            rw [rest]

end Packed

namespace IndexSet

variable {s t : IndexSet}

theorem get_words (s : IndexSet) (k : Nat) {b : Nat} (below : b < 64) :
    Packed.get s.words k b = s.contains (64 * k + b) := by
  rw [contains, show (64 * k + b) / 64 = k by omega, show (64 * k + b) % 64 = b by omega]

/-- What holds of two sets at every position of their words holds of them at every index. -/
theorem forall_get_iff (p : Bool → Bool → Prop) (clear : p false false) :
    (∀ k b, p (Packed.get s.words k b) (Packed.get t.words k b)) ↔
      ∀ i, p (s.contains i) (t.contains i) := by
  constructor
  · intro all i
    exact all (i / 64) (i % 64)
  · intro all k b
    rcases Nat.lt_or_ge b 64 with below | beyond
    · rw [get_words s k below, get_words t k below]
      exact all _
    · rw [Packed.get_eq_false_of_ge _ k beyond, Packed.get_eq_false_of_ge _ k beyond]
      exact clear

/-- Size decides early only what the members decide. -/
theorem isSubset_iff : s.isSubset t = true ↔ s.members ⊆ t.members := by
  have inside : Packed.within s.words t.words = true ↔ s.members ⊆ t.members := by
    rw [Packed.within_iff, forall_get_iff (fun a b => a = true → b = true) id]
    simp only [Finset.subset_iff, mem_members]
  rw [isSubset, Bool.and_eq_true, decide_eq_true_iff, inside]
  constructor
  · exact And.right
  · intro subset
    refine ⟨?_, subset⟩
    rw [← card_members, ← card_members]
    exact Finset.card_le_card subset

/-- Sets with the same members have the same words up to zeros at the end. -/
theorem significant_eq_iff : s.significant = t.significant ↔ s.members = t.members := by
  rw [significant, significant, Packed.significant_eq_iff, forall_get_iff (· = ·) rfl,
    Finset.ext_iff]
  refine forall_congr' fun i => ?_
  rw [mem_members, mem_members]
  exact Bool.eq_iff_iff

theorem beq_iff : (s == t) = true ↔ s.members = t.members := by
  show (s.size == t.size && s.significant == t.significant) = true ↔ _
  rw [Bool.and_eq_true, beq_iff_eq, beq_iff_eq, significant_eq_iff]
  constructor
  · exact And.right
  · intro same
    refine ⟨?_, same⟩
    rw [← card_members, ← card_members, same]

/-- Comparing words finds the sets that no earlier one of the list has the members of. -/
theorem firstSeen_eq (sets : List IndexSet) :
    firstSeen sets = sets.zipIdx.map fun entry : IndexSet × Nat =>
      decide (∀ t ∈ sets.take entry.2, t.members ≠ entry.1.members) := by
  refine List.map_congr_left fun entry _ => ?_
  rw [Bool.eq_iff_iff, Bool.not_eq_true', decide_eq_true_iff, List.contains_eq_any_beq,
    List.any_eq_false]
  refine forall₂_congr fun t _ => ?_
  rw [beq_iff, eq_comm]

end IndexSet

/-! ## One member after another -/

namespace Word

variable {w : Word}

theorem find?_bit (some : w ≠ 0) : (List.range 64).find? w.bit = .some w.trailingZeros := by
  cases found : (List.range 64).find? w.bit with
  | none =>
      have clear := List.find?_eq_none.mp found
      refine absurd (eq_of_bit_eq fun i => ?_) some
      rw [bit_zero, Bool.eq_false_iff]
      intro set
      exact clear i (List.mem_range.mpr (lt_of_bit set)) set
  | some t => rw [trailingZeros, found]; rfl

/-- Below the lowest set position a word is a multiple of a power of two. -/
theorem exists_toNat_eq (some : w ≠ 0) :
    ∃ q, w.toNat = 2 ^ (w.trailingZeros + 1) * q + 2 ^ w.trailingZeros := by
  obtain ⟨set, -, low⟩ := List.find?_range_eq_some.mp (find?_bit some)
  generalize w.trailingZeros = t at set low
  have lowest : w.toNat % 2 ^ (t + 1) = 2 ^ t := by
    apply Nat.eq_of_testBit_eq
    intro i
    rw [Nat.testBit_mod_two_pow, Nat.testBit_two_pow]
    rcases Nat.lt_trichotomy i t with less | rfl | greater
    · have clear : w.toNat.testBit i = false := by simpa [bit] using low i less
      simp [clear, Nat.ne_of_gt less]
    · have here : w.toNat.testBit i = true := set
      simp [here]
    · simp [show ¬i < t + 1 by omega, Nat.ne_of_lt greater]
  have sum := Nat.div_add_mod w.toNat (2 ^ (t + 1))
  rw [lowest] at sum
  exact ⟨_, sum.symm⟩

/-- Above its lowest set position a word and the word less one are the same; below it only the
latter is set, and at it only the former. -/
theorem bit_clearLowest (some : w ≠ 0) (i : Nat) :
    w.clearLowest.bit i = (w.bit i && decide (i ≠ w.trailingZeros)) := by
  obtain ⟨q, whole⟩ := exists_toNat_eq some
  generalize w.trailingZeros = t at whole
  have positive : 0 < 2 ^ t := Nat.two_pow_pos t
  have small : 2 ^ t < 2 ^ (t + 1) := Nat.pow_lt_pow_right (by decide) (by omega)
  have less : (w - 1).toNat = 2 ^ (t + 1) * q + (2 ^ t - 1) := by
    have one : 1 ≤ w := by rw [UInt64.le_iff_toNat_le, UInt64.toNat_one]; omega
    rw [UInt64.toNat_sub_of_le _ _ one, UInt64.toNat_one]
    omega
  rw [clearLowest, bit_and]
  unfold bit
  rw [less, whole, Nat.testBit_two_pow_mul_add _ small,
    Nat.testBit_two_pow_mul_add _ (by omega), Nat.testBit_two_pow, Nat.testBit_two_pow_sub_one]
  by_cases below : i < t + 1
  · rw [if_pos below, if_pos below]
    by_cases here : i = t
    · simp [here]
    · simp [here, Ne.symm here]
  · rw [if_neg below, if_neg below]
    simp [show i ≠ t by omega]

/-- The set positions begin with the lowest one, and then come those of the word without it. -/
theorem bits_eq_cons (some : w ≠ 0) : w.bits = w.trailingZeros :: w.clearLowest.bits := by
  have first : w.bits.head? = .some w.trailingZeros := by
    rw [bits, List.head?_filter]
    exact find?_bit some
  obtain ⟨rest, split⟩ := List.head?_eq_some_iff.mp first
  have ascending : (w.trailingZeros :: rest).Pairwise (· < ·) := by
    rw [← split]
    exact List.pairwise_lt_range.filter _
  have others : w.clearLowest.bits = w.bits.filter fun i => decide (i ≠ w.trailingZeros) := by
    rw [bits, bits, List.filter_filter]
    refine List.filter_congr fun i _ => ?_
    rw [bit_clearLowest some, Bool.and_comm]
  rw [others, split, List.filter_cons_of_neg (by simp), List.filter_eq_self.mpr]
  intro i member
  exact decide_eq_true (Nat.ne_of_gt (List.rel_of_pairwise_cons ascending member))

end Word

namespace Cursor

/-- What a cursor has still to list. -/
def left (c : Cursor) : List Nat := Packed.membersFrom (64 * c.index) (c.current :: c.rest)

section Left

variable (index : Nat) (rest : List Word)

theorem left_zero : left ⟨index, 0, rest⟩ = Packed.membersFrom (64 * (index + 1)) rest := by
  have nothing : Word.bits 0 = [] := List.filter_eq_nil_iff.mpr (by simp)
  rw [left, Packed.membersFrom, nothing, List.map_nil, List.nil_append, Nat.mul_add]

theorem left_of_ne_zero {current : Word} (some : current ≠ 0) :
    left ⟨index, current, rest⟩ =
      (index * 64 + current.trailingZeros) :: left ⟨index, current.clearLowest, rest⟩ := by
  rw [left, left, Packed.membersFrom, Packed.membersFrom, Word.bits_eq_cons some,
    List.map_cons, List.cons_append, Nat.mul_comm]

/-- By induction on the words after the current one, which a used up word goes on to. -/
theorem nextFrom_spec (current : Word) :
    (nextFrom index current rest).1 = (left ⟨index, current, rest⟩).head? ∧
      (nextFrom index current rest).2.left = (left ⟨index, current, rest⟩).tail := by
  induction rest generalizing index current with
  | nil =>
      unfold nextFrom
      by_cases used : current = 0
      · rw [if_pos used, used, left_zero]
        exact ⟨rfl, left_zero (index + 1) []⟩
      · rw [if_neg used, left_of_ne_zero index [] used]
        exact ⟨rfl, rfl⟩
  | cons w ws ih =>
      unfold nextFrom
      by_cases used : current = 0
      · rw [if_pos used, used, left_zero]
        exact ih (index + 1) w
      · rw [if_neg used, left_of_ne_zero index (w :: ws) used]
        exact ⟨rfl, rfl⟩

end Left

theorem next_spec (c : Cursor) : c.next.1 = c.left.head? ∧ c.next.2.left = c.left.tail :=
  nextFrom_spec c.index c.rest c.current

theorem left_after (k : Nat) (c : Cursor) : (after k c).left = c.left.drop k := by
  induction k generalizing c with
  | zero => rfl
  | succ k ih =>
      rw [after, ih, (next_spec c).2, List.drop_tail]

end Cursor

/-- The calls of a cursor list the members, and then there is nothing more to list. -/
theorem IndexSet.next_after (s : IndexSet) (k : Nat) :
    (s.cursor.after k).next.1 = s.toList[k]? := by
  have start : s.cursor.left = s.toList := by
    unfold cursor Cursor.left toList
    cases s.words with
    | nil => rfl
    | cons w ws => rfl
  rw [(Cursor.next_spec _).1, Cursor.left_after, start, List.head?_drop]

/-! ## Programs -/

namespace Registers

/-- What a caller has a register hold next. -/
inductive Operation where
  /-- A new set with room for indices below a capacity. -/
  | withCapacity (capacity : Nat)
  | empty
  | default
  | collect (indices : List Nat)
  /-- A copy of a register. -/
  | clone (source : Nat)
  /-- A copy of a register with one more member. -/
  | adjoin (source i : Nat)
  /-- One more member. -/
  | insert (i : Nat)
  /-- More members. -/
  | extend (indices : List Nat)

/-- An operation, and the register it writes. -/
structure Instruction where
  target : Nat
  operation : Operation

/-- The index set that an instruction writes. -/
def Instruction.value (sets : Nat → IndexSet) (c : Instruction) : IndexSet :=
  match c.operation with
  | .withCapacity capacity => IndexSet.withCapacity capacity
  | .empty => IndexSet.empty
  | .default => Inhabited.default
  | .collect indices => IndexSet.ofList indices
  | .clone source => sets source
  | .adjoin source i => (sets source).insert i
  | .insert i => ((sets c.target).insertNew i).2
  | .extend indices => (sets c.target).extend indices

/-- The finite set that an instruction writes. -/
def Instruction.meaning (sets : Nat → Finset Nat) (c : Instruction) : Finset Nat :=
  match c.operation with
  | .withCapacity _ => ∅
  | .empty => ∅
  | .default => ∅
  | .collect indices => indices.toFinset
  | .clone source => sets source
  | .adjoin source i => Insert.insert i (sets source)
  | .insert i => Insert.insert i (sets c.target)
  | .extend indices => sets c.target ∪ indices.toFinset

/-- The registers after one more instruction. -/
def step (sets : Nat → IndexSet) (c : Instruction) : Nat → IndexSet :=
  Function.update sets c.target (c.value sets)

/-- The finite sets after one more instruction. -/
def stepSets (sets : Nat → Finset Nat) (c : Instruction) : Nat → Finset Nat :=
  Function.update sets c.target (c.meaning sets)

/-- The registers after a program; all begin empty. -/
def run (program : List Instruction) : Nat → IndexSet :=
  program.foldl step fun _ => IndexSet.empty

/-- The finite sets after a program. -/
def runSets (program : List Instruction) : Nat → Finset Nat := program.foldl stepSets fun _ => ∅

theorem members_value (sets : Nat → IndexSet) (c : Instruction) :
    (c.value sets).members = c.meaning fun r => (sets r).members := by
  obtain ⟨target, operation⟩ := c
  cases operation with
  | withCapacity capacity => exact IndexSet.members_withCapacity capacity
  | empty => rfl
  | default => rfl
  | collect indices => exact IndexSet.members_ofList indices
  | clone source => rfl
  | adjoin source i => exact IndexSet.members_insert (sets source) i
  | insert i => exact IndexSet.members_insert (sets target) i
  | extend indices => exact IndexSet.members_extend (sets target) indices

/-- A step on index sets is one on their members. -/
theorem members_step (sets : Nat → IndexSet) (c : Instruction) (r : Nat) :
    (step sets c r).members = stepSets (fun r => (sets r).members) c r := by
  unfold step stepSets
  by_cases written : r = c.target
  · rw [written, Function.update_self, Function.update_self, members_value]
  · rw [Function.update_of_ne written, Function.update_of_ne written]

theorem members_run (program : List Instruction) (r : Nat) :
    (run program r).members = runSets program r := by
  -- by the last instruction: a step needs the members of all registers before it
  induction program using List.reverseRecOn generalizing r with
  | nil => rfl
  | append_singleton program c ih =>
      have before : (fun r => (run program r).members) = runSets program := funext ih
      rw [run, runSets, List.foldl_concat, List.foldl_concat, ← run, ← runSets, members_step,
        before]

end Registers

/-- What a caller sees of an index set is what the finite set `S` has. -/
structure IndexSet.StandsFor (s : IndexSet) (S : Finset Nat) : Prop where
  size : s.size = S.card
  isEmpty : s.isEmpty = true ↔ S = ∅
  contains : ∀ i, s.contains i = true ↔ i ∈ S
  /-- An index is reported as new when it was no member. -/
  insertNew : ∀ i, (s.insertNew i).1 = true ↔ i ∉ S
  /-- The members are listed in ascending order, each once. -/
  ascending : s.toList.Pairwise (· < ·)
  mem_toList : ∀ i, i ∈ s.toList ↔ i ∈ S
  /-- The calls of a cursor list the same, and then nothing more. -/
  next_after : ∀ k, (s.cursor.after k).next.1 = s.toList[k]?

theorem IndexSet.standsFor_members (s : IndexSet) : s.StandsFor s.members where
  size := s.card_members.symm
  isEmpty := isEmpty_iff
  contains _ := mem_members.symm
  insertNew i := by
    rw [insertNew, mem_members]
    simp
  ascending := s.pairwise_toList
  mem_toList _ := List.mem_toFinset.symm
  next_after := s.next_after

namespace Registers

/-- **Index sets are finite sets.** After every program, each register stands for its finite
set; subsets, equality and the words that are hashed are those of the finite sets; and no
instruction changes a register other than the one it writes. -/
theorem run_standsFor (program : List Instruction) :
    (∀ r, (run program r).StandsFor (runSets program r)) ∧
    (∀ a b,
      ((run program a).isSubset (run program b) = true ↔
        runSets program a ⊆ runSets program b) ∧
      ((run program a == run program b) = true ↔ runSets program a = runSets program b) ∧
      ((run program a).significant = (run program b).significant ↔
        runSets program a = runSets program b)) ∧
    ∀ (c : Instruction) (r : Nat), r ≠ c.target → run (program ++ [c]) r = run program r := by
  refine ⟨fun r => ?_, fun a b => ?_, fun c r other => ?_⟩
  · rw [← members_run]
    exact (run program r).standsFor_members
  · rw [← members_run, ← members_run]
    exact ⟨IndexSet.isSubset_iff, IndexSet.beq_iff, IndexSet.significant_eq_iff⟩
  · rw [run, List.foldl_concat, ← run, step, Function.update_of_ne other]

/-- Two histories of one set: grown from a capacity of a thousand, and collected in another
order. Their words differ, and they are equal; a copy with one more member is not. -/
theorem run_standsFor_histories :
    let program : List Instruction :=
      [⟨0, .withCapacity 1000⟩, ⟨0, .insert 3⟩, ⟨0, .insert 70⟩, ⟨1, .collect [70, 3, 70]⟩]
    (run program 0).words ≠ (run program 1).words ∧
      (run program 0 == run program 1) = true ∧
      (run program 0).significant = (run program 1).significant ∧
      run (program ++ [⟨2, .adjoin 1 5⟩]) 1 = run program 1 ∧
      (run (program ++ [⟨2, .adjoin 1 5⟩]) 2).StandsFor {3, 5, 70} := by
  intro program
  obtain ⟨-, equal, hashed⟩ := (run_standsFor program).2.1 0 1
  refine ⟨by decide, equal.mpr (by decide), hashed.mpr (by decide), ?_, ?_⟩
  · exact (run_standsFor program).2.2 ⟨2, .adjoin 1 5⟩ 1 (by decide)
  · have copy := (run_standsFor (program ++ [⟨2, .adjoin 1 5⟩])).1 2
    have same : runSets (program ++ [⟨2, .adjoin 1 5⟩]) 2 = {3, 5, 70} := by decide
    rw [same] at copy
    exact copy

end Registers

end TwoLevel
