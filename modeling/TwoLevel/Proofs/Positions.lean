/-
# TwoLevel.Proofs.Positions — words as finite sets of positions

`positions w` is the set of the positions set in `w`. The operations on words that
implicants are made of are the operations on these sets, and `popCount` is the size
(`card_positions`). What counts of positions are used for follows from facts about
sizes of finite sets:

* `popCount_eq_one_iff`: one position is set exactly in the words `single p`;
* `popCount_le`, `eq_of_popCount_le`: a set of positions within another one is not
  larger, and equal if it is as large;
* `popCount_complement`: how many positions in use a word leaves.

`admits_iff_bit` and `admits_iff_lt` say what an arity admits, by positions and by
value.
-/
import Mathlib.Algebra.Group.Nat.Defs
import Mathlib.Data.Finset.Card
import TwoLevel.Arity

namespace TwoLevel

set_option autoImplicit false

namespace Word

/-- The positions set in `w`. -/
def positions (w : Word) : Finset Nat := (Finset.range 64).filter fun i => w.bit i = true

@[simp] theorem mem_positions {w : Word} {i : Nat} : i ∈ w.positions ↔ w.bit i = true := by
  simp only [positions, Finset.mem_filter, Finset.mem_range]
  exact ⟨And.right, fun set => ⟨lt_of_bit set, set⟩⟩

theorem eq_iff_bit {v w : Word} : v = w ↔ ∀ i, v.bit i = w.bit i :=
  ⟨fun same _ => same ▸ rfl, eq_of_bit_eq⟩

theorem positions_injective : Function.Injective positions := by
  intro v w same
  apply eq_of_bit_eq
  intro i
  have member : v.bit i = true ↔ w.bit i = true := by rw [← mem_positions, same, mem_positions]
  exact Bool.eq_iff_iff.mpr member

theorem card_positions (w : Word) : w.positions.card = w.popCount := by
  rw [popCount_eq_countP, List.countP_eq_length_filter]
  simp [positions, Finset.filter, Multiset.range]

@[simp high] theorem bit_and_not (v w : Word) (i : Nat) :
    (v &&& ~~~w).bit i = (v.bit i && !w.bit i) := by
  rw [bit_and, bit_not]
  by_cases below : i < 64
  · simp [below]
  · simp [bit_eq_false_of_ge v (Nat.not_lt.mp below)]

@[simp high] theorem bit_not_and (v w : Word) (i : Nat) :
    (~~~v &&& w).bit i = (!v.bit i && w.bit i) := by
  rw [UInt64.and_comm, bit_and_not, Bool.and_comm]

theorem positions_subset {v w : Word} :
    v.positions ⊆ w.positions ↔ ∀ i, v.bit i = true → w.bit i = true := by
  simp [Finset.subset_iff]

theorem popCount_le {v w : Word} (within : ∀ i, v.bit i = true → w.bit i = true) :
    v.popCount ≤ w.popCount := by
  rw [← card_positions, ← card_positions]
  exact Finset.card_le_card (positions_subset.mpr within)

theorem eq_of_popCount_le {v w : Word} (within : ∀ i, v.bit i = true → w.bit i = true)
    (large : w.popCount ≤ v.popCount) : v = w := by
  rw [← card_positions, ← card_positions] at large
  exact positions_injective (Finset.eq_of_subset_of_card_le (positions_subset.mpr within) large)

theorem and_single_eq_zero_iff {w : Word} {k : Nat} (width : k < 64) :
    w &&& single k = 0 ↔ w.bit k = false := by
  rw [eq_iff_bit]
  constructor
  · intro clear
    simpa [bit_single width] using clear k
  · intro clear i
    by_cases same : k = i
    · subst same; simp [clear]
    · simp [bit_single width, same]

theorem popCount_eq_one_iff {w : Word} : w.popCount = 1 ↔ ∃ p, p < 64 ∧ w = single p := by
  constructor
  · intro one
    rw [← card_positions] at one
    obtain ⟨p, only⟩ := Finset.card_eq_one.mp one
    have set : w.bit p = true := by rw [← mem_positions, only, Finset.mem_singleton]
    have below := lt_of_bit set
    refine ⟨p, below, eq_of_bit_eq fun i => ?_⟩
    have member : w.bit i = true ↔ p = i := by
      rw [← mem_positions, only, Finset.mem_singleton, eq_comm]
    rw [bit_single below, Bool.eq_iff_iff, member, decide_eq_true_iff]
  · rintro ⟨p, below, rfl⟩
    have grown := popCount_or_single 0 below
    have empty : popCount 0 = 0 := by decide
    simpa [empty] using grown

/-- Clearing a set position leaves one fewer. -/
theorem popCount_and_not_single {w : Word} {p : Nat} (set : w.bit p = true) :
    (w &&& ~~~single p).popCount + 1 = w.popCount := by
  have below := lt_of_bit set
  have restored : (w &&& ~~~single p) ||| single p = w := by
    apply eq_of_bit_eq
    intro i
    rw [bit_or, bit_and_not, bit_single below]
    by_cases same : p = i
    · subst same; simp [set]
    · simp [same]
  have clear : (w &&& ~~~single p).bit p = false := by simp [bit_single below]
  have grown := popCount_or_single (w &&& ~~~single p) below
  rw [restored, clear] at grown
  exact grown.symm

end Word

namespace Arity

theorem admits_iff_bit {n : Arity} {x : Word} :
    n.admits x = true ↔ ∀ i, x.bit i = true → i < n.size := by
  rw [admits, beq_iff_eq, Word.eq_iff_bit]
  simp only [Word.bit_and_not, bit_mask, Word.bit_zero, Bool.and_eq_false_iff, Bool.not_eq_false',
    decide_eq_true_eq]
  refine forall_congr' fun i => ?_
  cases x.bit i <;> simp

theorem bit_eq_false_of_admits {n : Arity} {x : Word} (admitted : n.admits x = true) {i : Nat}
    (beyond : n.size ≤ i) : x.bit i = false := by
  refine Bool.eq_false_iff.mpr fun set => ?_
  exact absurd (admits_iff_bit.mp admitted i set) (Nat.not_lt.mpr beyond)

theorem admits_and_mask (n : Arity) (x : Word) : n.admits (x &&& n.mask) = true := by
  refine admits_iff_bit.mpr fun i set => ?_
  rw [Word.bit_and, bit_mask, Bool.and_eq_true, decide_eq_true_iff] at set
  exact set.2

theorem admits_iff_lt {n : Arity} {x : Word} : n.admits x = true ↔ x.toNat < 2 ^ n.size := by
  rw [admits_iff_bit]
  constructor
  · intro inside
    apply Nat.lt_pow_two_of_testBit
    intro i beyond
    by_contra set
    exact absurd (inside i (Bool.eq_true_of_not_eq_false set)) (Nat.not_lt.mpr beyond)
  · intro small i set
    by_contra beyond
    have clear : x.toNat.testBit i = false :=
      Nat.testBit_lt_two_pow
        (lt_of_lt_of_le small (Nat.pow_le_pow_right (by decide) (Nat.not_lt.mp beyond)))
    exact absurd (clear.symm.trans set) (by decide)

theorem popCount_mask (n : Arity) : n.mask.popCount = n.size := by
  have view : n.mask.positions = Finset.range n.size := by
    ext i
    simp
  rw [← Word.card_positions, view, Finset.card_range]

theorem popCount_le {n : Arity} {x : Word} (admitted : n.admits x = true) :
    x.popCount ≤ n.size := by
  rw [← n.popCount_mask]
  exact Word.popCount_le fun i set => by simpa using admits_iff_bit.mp admitted i set

/-- The positions in use are those of `x` and the others. -/
theorem popCount_complement {n : Arity} {x : Word} (admitted : n.admits x = true) :
    (~~~x &&& n.mask).popCount + x.popCount = n.size := by
  have others : (~~~x &&& n.mask).positions = n.mask.positions \ x.positions := by
    ext i
    simp [and_comm]
  have inside : x.positions ⊆ n.mask.positions :=
    Word.positions_subset.mpr fun i set => by simpa using admits_iff_bit.mp admitted i set
  rw [← Word.card_positions, ← Word.card_positions, others,
    Finset.card_sdiff_add_card_eq_card inside, Word.card_positions, popCount_mask]

end Arity

end TwoLevel
