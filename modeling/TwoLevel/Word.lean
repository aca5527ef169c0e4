/-
# TwoLevel.Word — 64-bit words as sets of bit positions

Assignments, minterms and masks are all 64-bit words. The one view of a word
used everywhere else is `Word.bit`: which positions are set. `bits` lists those
positions in ascending order and `popCount` counts them (`popCount_eq_countP`);
`bit_and`, `bit_or`, `bit_xor`, `bit_not`, `bit_single` and `bit_low` say what each
operation does to the view, `eq_of_bit_eq` that the view decides the word.
-/
namespace TwoLevel

set_option autoImplicit false

/-- Sixty-four bits; position `0` is the least significant. -/
abbrev Word := UInt64

namespace Word

/-- Whether position `i` is set. Positions from 64 on never are. -/
def bit (w : Word) (i : Nat) : Bool := w.toNat.testBit i

/-- The set positions, ascending. -/
def bits (w : Word) : List Nat := (List.range 64).filter (bit w)

/-- How many of the `k` lowest positions are set, read off until no position is left. -/
def countLow : Nat → Word → Nat
  | 0, _ => 0
  | k + 1, w => if w = 0 then 0 else (w &&& 1).toNat + countLow k (w >>> 1)

/-- How many positions are set. -/
def popCount (w : Word) : Nat := countLow 64 w

/-- The word whose only set position is `i`, counted modulo the width. -/
def single (i : Nat) : Word := 1 <<< UInt64.ofNat i

/-- The word whose set positions are those below `k`. -/
def low (k : Nat) : Word := if k < 64 then single k - 1 else ~~~0

theorem bit_eq_false_of_ge (w : Word) {i : Nat} (beyond : 64 ≤ i) : bit w i = false :=
  Nat.testBit_lt_two_pow
    (Nat.lt_of_lt_of_le w.toNat_lt (Nat.pow_le_pow_right (by decide) beyond))

theorem lt_of_bit {w : Word} {i : Nat} (set : bit w i = true) : i < 64 := by
  apply Nat.lt_of_not_le
  intro beyond
  simp [bit_eq_false_of_ge w beyond] at set

@[simp] theorem bit_zero (i : Nat) : bit 0 i = false := by simp [bit]

@[simp] theorem bit_and (v w : Word) (i : Nat) : bit (v &&& w) i = (bit v i && bit w i) := by
  simp [bit]

@[simp] theorem bit_or (v w : Word) (i : Nat) : bit (v ||| w) i = (bit v i || bit w i) := by
  simp [bit]

@[simp] theorem bit_xor (v w : Word) (i : Nat) : bit (v ^^^ w) i = (bit v i ^^ bit w i) := by
  simp [bit]

theorem bit_not (w : Word) (i : Nat) : bit (~~~w) i = (decide (i < 64) && !bit w i) := by
  simp only [bit, UInt64.toNat, UInt64.toBitVec_not, BitVec.testBit_toNat, BitVec.getLsbD_not]

theorem bit_shiftRight_one (w : Word) (i : Nat) : bit (w >>> 1) i = bit w (i + 1) := by
  simp [bit, Nat.testBit_shiftRight, Nat.add_comm]

theorem toNat_single (i : Nat) : (single i).toNat = 1 <<< (i % 64) := by
  have below : i % 64 < 64 := Nat.mod_lt _ (by decide)
  have wrapped : i % 2 ^ 64 % 64 = i % 64 := Nat.mod_mod_of_dvd i (by decide)
  simp only [single, UInt64.toNat_shiftLeft, UInt64.toNat_ofNat', UInt64.toNat_one, wrapped,
    Nat.one_shiftLeft]
  exact Nat.mod_eq_of_lt (Nat.pow_lt_pow_right (by decide) below)

theorem bit_single {i : Nat} (below : i < 64) (j : Nat) : bit (single i) j = decide (i = j) := by
  rw [bit, toNat_single, Nat.mod_eq_of_lt below, Nat.one_shiftLeft, Nat.testBit_two_pow]

theorem toNat_low (k : Nat) : (low k).toNat = (1 <<< min k 64) - 1 := by
  unfold low
  split
  · next below =>
    have size : (single k).toNat = 1 <<< k := by rw [toNat_single, Nat.mod_eq_of_lt below]
    have positive : 1 ≤ single k := by
      rw [UInt64.le_iff_toNat_le, size, Nat.one_shiftLeft]
      exact Nat.one_le_two_pow
    rw [UInt64.toNat_sub_of_le _ _ positive, size, Nat.min_eq_left (Nat.le_of_lt below)]
    rfl
  · next above =>
    rw [Nat.min_eq_right (Nat.not_lt.mp above)]
    rfl

theorem bit_low {k : Nat} (within : k ≤ 64) (i : Nat) : bit (low k) i = decide (i < k) := by
  rw [bit, toNat_low, Nat.min_eq_left within, Nat.one_shiftLeft, Nat.testBit_two_pow_sub_one]

/-- Two words with the same set positions are one word. -/
theorem eq_of_bit_eq {v w : Word} (same : ∀ i, bit v i = bit w i) : v = w :=
  UInt64.toNat_inj.mp (Nat.eq_of_testBit_eq same)

theorem mem_bits {w : Word} {i : Nat} : i ∈ bits w ↔ bit w i = true := by
  simp only [bits, List.mem_filter, List.mem_range]
  exact ⟨And.right, fun set => ⟨lt_of_bit set, set⟩⟩

theorem countLow_eq_countP (k : Nat) (w : Word) : countLow k w = (List.range k).countP (bit w) := by
  induction k generalizing w with
  | zero => rfl
  | succ k ih =>
    rw [countLow]
    split
    · next empty => exact (List.countP_eq_zero.mpr (by simp [empty])).symm
    · have lowest : (w &&& 1).toNat = if bit w 0 then 1 else 0 := by
        simp only [bit, Nat.testBit_zero, UInt64.toNat_and, UInt64.toNat_one, Nat.and_one_is_mod,
          decide_eq_true_eq]
        split <;> omega
      have shifted : bit (w >>> 1) = bit w ∘ Nat.succ := funext (bit_shiftRight_one w)
      rw [ih, List.range_succ_eq_map, List.countP_cons, List.countP_map, shifted, lowest,
        Nat.add_comm]

/-- The count is that of the set positions among all of them. -/
theorem popCount_eq_countP (w : Word) : popCount w = (List.range 64).countP (bit w) :=
  countLow_eq_countP 64 w

theorem length_bits (w : Word) : (bits w).length = popCount w := by
  rw [popCount_eq_countP, bits, List.countP_eq_length_filter]

/-- Adding one position to a set of positions below `k` adds one to its count
exactly when the position is below `k` and new. -/
theorem countP_range_insert (p : Nat → Bool) (i k : Nat) :
    (List.range k).countP (fun j => p j || decide (i = j)) =
      (List.range k).countP p + if i < k ∧ p i = false then 1 else 0 := by
  induction k with
  | zero => simp
  | succ k ih =>
    rw [List.range_succ, List.countP_append, List.countP_append, ih]
    by_cases last : i = k
    · subst last
      cases h : p i <;> simp [h]
    · have step : (i < k + 1) = (i < k) := by apply propext; omega
      simp only [step, List.countP_singleton, last, decide_false, Bool.or_false]
      omega

/-- Setting a position adds one to the count exactly when it was clear. -/
theorem popCount_or_single (w : Word) {i : Nat} (below : i < 64) :
    popCount (w ||| single i) = popCount w + if bit w i then 0 else 1 := by
  have view : bit (w ||| single i) = fun j => bit w j || decide (i = j) := by
    funext j
    rw [bit_or, bit_single below]
  rw [popCount_eq_countP, view, countP_range_insert, popCount_eq_countP]
  cases h : bit w i <;> simp [below]

end Word

end TwoLevel
