/-
# TwoLevel.Proofs.Cube — subcubes and the prime ones

A `Cube` is the set of the words that agree with its base outside its mask; the base
is clear under the mask, so that every subcube has one description. Cubes are ordered
by inclusion (`le_iff`), `dimension` counts the free positions.

One step up frees a position: `widen p` is the union of a cube and its `mirror p`
(`mem_widen`). Every strict inclusion goes through such a step (`exists_widen_le`), and
every cube of positive dimension is such a union (`widen_narrow`), of halves that it decides
(`narrow_widen`). From this follows what a search by repeated merging relies on:

* `exists_dimension`: below a cube there are cubes of every smaller dimension;
* `exists_isPrime_ge`: a cube within a set lies in a prime one, `IsPrime` being
  maximal among the cubes within the set;
* `isPrime_iff_widen`: a cube within a set is prime when no step up stays within it.
-/
import Mathlib.Order.Minimal
import TwoLevel.Proofs.Positions

namespace TwoLevel

set_option autoImplicit false

/-- The words that agree with `base` outside `mask`. -/
structure Cube where
  mask : Word
  base : Word
  clear : base &&& mask = 0
  deriving DecidableEq

namespace Cube

instance : Membership Word Cube := ⟨fun c x => x &&& ~~~c.mask = c.base⟩

instance : LE Cube := ⟨fun c d => ∀ x ∈ c, x ∈ d⟩

/-- How many positions are free. -/
def dimension (c : Cube) : Nat := c.mask.popCount

/-- The cube of one word. -/
def point (x : Word) : Cube := ⟨0, x, UInt64.and_zero⟩

/-- The cube on the other side of position `p`. -/
def mirror (c : Cube) (p : Nat) : Cube where
  mask := c.mask
  base := (c.base ^^^ Word.single p) &&& ~~~c.mask
  clear := Word.eq_of_bit_eq fun i => by cases h : c.mask.bit i <;> simp [h]

/-- The cube with position `p` free as well. -/
def widen (c : Cube) (p : Nat) : Cube where
  mask := c.mask ||| Word.single p
  base := c.base &&& ~~~Word.single p
  clear := by
    have base := Word.eq_iff_bit.mp c.clear
    refine Word.eq_of_bit_eq fun i => ?_
    have bit := base i
    cases h : (Word.single p).bit i <;> simp_all

/-- The half of a cube in which position `p` is clear. -/
def narrow (c : Cube) (p : Nat) : Cube where
  mask := c.mask &&& ~~~Word.single p
  base := c.base
  clear := by
    have base := Word.eq_iff_bit.mp c.clear
    refine Word.eq_of_bit_eq fun i => ?_
    have bit := base i
    cases h : (Word.single p).bit i <;> simp_all

/-- Every word of the cube is in the list. -/
def Within (S : List Word) (c : Cube) : Prop := ∀ x ∈ c, x ∈ S

/-- A cube within `S` that lies in no other one. -/
def IsPrime (S : List Word) (c : Cube) : Prop := Maximal (Within S) c

/-! ## Membership and inclusion -/

theorem mem_def {c : Cube} {x : Word} : x ∈ c ↔ x &&& ~~~c.mask = c.base := Iff.rfl

theorem base_bit {c : Cube} {i : Nat} (free : c.mask.bit i = true) : c.base.bit i = false := by
  have bit := Word.eq_iff_bit.mp c.clear i
  simpa [free] using bit

theorem mask_bit_eq_false {c : Cube} {i : Nat} (set : c.base.bit i = true) :
    c.mask.bit i = false := by
  refine Bool.eq_false_iff.mpr fun free => ?_
  rw [base_bit free] at set
  cases set

theorem mem_iff_bit {c : Cube} {x : Word} :
    x ∈ c ↔ ∀ i, c.mask.bit i = false → x.bit i = c.base.bit i := by
  rw [mem_def, Word.eq_iff_bit]
  refine forall_congr' fun i => ?_
  cases free : c.mask.bit i with
  | false => simp [free]
  | true => simp [free, base_bit free]

theorem base_mem (c : Cube) : c.base ∈ c := mem_iff_bit.mpr fun _ _ => rfl

theorem ext {c d : Cube} (mask : c.mask = d.mask) (base : c.base = d.base) : c = d := by
  cases c
  cases d
  simp_all

theorem le_iff {c d : Cube} :
    c ≤ d ↔ (∀ i, c.mask.bit i = true → d.mask.bit i = true) ∧ c.base ∈ d := by
  constructor
  · intro inside
    refine ⟨fun i free => ?_, inside _ c.base_mem⟩
    by_contra fixed
    have fixed : d.mask.bit i = false := Bool.eq_false_of_not_eq_true fixed
    have below := Word.lt_of_bit free
    -- the base and the base with position `i` set are both in `c`, but not both in `d`
    have raised : c.base ||| Word.single i ∈ c := by
      refine mem_iff_bit.mpr fun j held => ?_
      have other : i ≠ j := by rintro rfl; simp [free] at held
      simp [Word.bit_single below, other]
    have low := mem_iff_bit.mp (inside _ c.base_mem) i fixed
    have high := mem_iff_bit.mp (inside _ raised) i fixed
    simp [Word.bit_single below, ← low, base_bit free] at high
  · rintro ⟨masks, inside⟩ x member
    refine mem_iff_bit.mpr fun i fixed => ?_
    have held : c.mask.bit i = false := by
      by_contra free
      simp [masks i (Bool.eq_true_of_not_eq_false free)] at fixed
    rw [mem_iff_bit.mp member i held, mem_iff_bit.mp inside i fixed]

theorem mask_le {c d : Cube} (inside : c ≤ d) {i : Nat} (free : c.mask.bit i = true) :
    d.mask.bit i = true :=
  (le_iff.mp inside).1 i free

theorem eq_of_le_of_mask_eq {c d : Cube} (inside : c ≤ d) (same : c.mask = d.mask) : c = d := by
  refine ext same (Word.eq_of_bit_eq fun i => ?_)
  cases free : d.mask.bit i with
  | true => rw [base_bit free, base_bit (same ▸ free)]
  | false => exact mem_iff_bit.mp (le_iff.mp inside).2 i free

instance : PartialOrder Cube where
  le_refl _ _ member := member
  le_trans _ _ _ first second x member := second x (first x member)
  le_antisymm c d inside back := by
    refine eq_of_le_of_mask_eq inside (Word.eq_of_bit_eq fun i => ?_)
    exact Bool.eq_iff_iff.mpr ⟨mask_le inside, mask_le back⟩

theorem dimension_le {c d : Cube} (inside : c ≤ d) : c.dimension ≤ d.dimension :=
  Word.popCount_le fun _ => mask_le inside

theorem eq_of_dimension_le {c d : Cube} (inside : c ≤ d) (large : d.dimension ≤ c.dimension) :
    c = d :=
  eq_of_le_of_mask_eq inside (Word.eq_of_popCount_le (fun _ => mask_le inside) large)

@[simp] theorem mem_point {x y : Word} : y ∈ point x ↔ y = x := by
  simp [mem_def, point]

@[simp] theorem dimension_point (x : Word) : (point x).dimension = 0 := by
  show Word.popCount 0 = 0
  decide

/-! ## One step up and down -/

theorem mirror_base_bit {c : Cube} {p : Nat} (below : p < 64) (i : Nat) :
    (c.mirror p).base.bit i = ((c.base.bit i ^^ decide (p = i)) && !c.mask.bit i) := by
  show ((c.base ^^^ Word.single p) &&& ~~~c.mask).bit i = _
  rw [Word.bit_and_not, Word.bit_xor, Word.bit_single below]

theorem mem_mirror {c : Cube} {p : Nat} (below : p < 64) {x : Word} :
    x ∈ c.mirror p ↔ x ^^^ Word.single p ∈ c := by
  have masks : (c.mirror p).mask = c.mask := rfl
  rw [mem_iff_bit, mem_iff_bit, masks]
  refine forall_congr' fun i => imp_congr_right fun fixed => ?_
  have base : (c.mirror p).base.bit i = ((c.base ^^^ Word.single p) &&& ~~~c.mask).bit i := rfl
  rw [base, Word.bit_and_not, Word.bit_xor, Word.bit_xor, Word.bit_single below, fixed]
  cases x.bit i <;> cases c.base.bit i <;> simp

theorem mem_widen {c : Cube} {p : Nat} (below : p < 64) {x : Word} :
    x ∈ c.widen p ↔ x ∈ c ∨ x ∈ c.mirror p := by
  have outside : x ∈ c.widen p ↔ ∀ i, c.mask.bit i = false → p ≠ i → x.bit i = c.base.bit i := by
    simp only [mem_iff_bit, widen, Word.bit_or, Word.bit_and_not, Word.bit_single below,
      Bool.or_eq_false_iff, decide_eq_false_iff_not, and_imp]
    refine forall_congr' fun i => imp_congr_right fun _ => imp_congr_right fun other => ?_
    simp [other]
  rw [outside, mem_mirror below, mem_iff_bit, mem_iff_bit]
  constructor
  · intro elsewhere
    -- position `p` alone decides the side
    by_cases agree : x.bit p = c.base.bit p
    · left
      intro i fixed
      by_cases same : p = i
      · exact same ▸ agree
      · exact elsewhere i fixed same
    · right
      intro i fixed
      rw [Word.bit_xor, Word.bit_single below]
      by_cases same : p = i
      · subst same
        rw [decide_eq_true rfl, Bool.xor_true, Bool.not_eq]
        exact agree
      · simpa [same] using elsewhere i fixed same
  · rintro (member | member) i fixed other
    · exact member i fixed
    · simpa [Word.bit_single below, other] using member i fixed

theorem le_widen {c : Cube} {p : Nat} (below : p < 64) : c ≤ c.widen p :=
  fun _ member => (mem_widen below).mpr (.inl member)

theorem mirror_le_widen {c : Cube} {p : Nat} (below : p < 64) : c.mirror p ≤ c.widen p :=
  fun _ member => (mem_widen below).mpr (.inr member)

theorem dimension_widen {c : Cube} {p : Nat} (below : p < 64) (held : c.mask.bit p = false) :
    (c.widen p).dimension = c.dimension + 1 := by
  have grown := Word.popCount_or_single c.mask below
  rw [held] at grown
  exact grown

theorem mirror_mirror {c : Cube} {p : Nat} : (c.mirror p).mirror p = c := by
  refine ext rfl (Word.eq_of_bit_eq fun i => ?_)
  simp only [mirror, Word.bit_and_not, Word.bit_xor]
  cases free : c.mask.bit i with
  | true => simp [base_bit free]
  | false => cases c.base.bit i <;> cases (Word.single p).bit i <;> rfl

theorem narrow_mask_bit {c : Cube} {p : Nat} (below : p < 64) :
    (c.narrow p).mask.bit p = false := by
  simp [narrow, Word.bit_single below]

theorem widen_narrow {c : Cube} {p : Nat} (free : c.mask.bit p = true) :
    (c.narrow p).widen p = c := by
  have below := Word.lt_of_bit free
  refine ext (Word.eq_of_bit_eq fun i => ?_) (Word.eq_of_bit_eq fun i => ?_) <;>
    by_cases same : p = i
  · subst same; simp [narrow, widen, Word.bit_single below, free]
  · simp [narrow, widen, Word.bit_single below, same]
  · subst same; simp [narrow, widen, Word.bit_single below, base_bit free]
  · simp [narrow, widen, Word.bit_single below, same]

/-- A cube in which `p` is clear is the lower half of what it widens to. -/
theorem narrow_widen {c : Cube} {p : Nat} (below : p < 64) (held : c.mask.bit p = false)
    (low : c.base.bit p = false) : (c.widen p).narrow p = c := by
  refine ext (Word.eq_of_bit_eq fun i => ?_) (Word.eq_of_bit_eq fun i => ?_) <;>
    by_cases same : p = i
  · subst same; simp [narrow, widen, Word.bit_single below, held]
  · simp [narrow, widen, Word.bit_single below, same]
  · subst same; simp [narrow, widen, Word.bit_single below, low]
  · simp [narrow, widen, Word.bit_single below, same]

theorem narrow_le {c : Cube} {p : Nat} (free : c.mask.bit p = true) : c.narrow p ≤ c := by
  have below := Word.lt_of_bit free
  have step := le_widen (c := c.narrow p) below
  rwa [widen_narrow free] at step

theorem dimension_narrow {c : Cube} {p : Nat} (free : c.mask.bit p = true) :
    (c.narrow p).dimension + 1 = c.dimension :=
  Word.popCount_and_not_single free

/-- Between a cube and a larger one there is a step up. -/
theorem exists_widen_le {c d : Cube} (inside : c ≤ d) (differ : c ≠ d) :
    ∃ p, p < 64 ∧ c.mask.bit p = false ∧ c.widen p ≤ d := by
  have freed : ∃ p, d.mask.bit p = true ∧ c.mask.bit p = false := by
    by_contra none
    refine differ (eq_of_le_of_mask_eq inside (Word.eq_of_bit_eq fun i => ?_))
    refine Bool.eq_iff_iff.mpr ⟨mask_le inside, fun free => ?_⟩
    by_contra held
    exact none ⟨i, free, Bool.eq_false_of_not_eq_true held⟩
  obtain ⟨p, free, held⟩ := freed
  have below := Word.lt_of_bit free
  refine ⟨p, below, held, le_iff.mpr ⟨fun i => ?_, mem_iff_bit.mpr fun i fixed => ?_⟩⟩
  · simp only [widen, Word.bit_or, Word.bit_single below, Bool.or_eq_true, decide_eq_true_eq]
    rintro (own | rfl)
    · exact mask_le inside own
    · exact free
  · have other : p ≠ i := by rintro rfl; simp [free] at fixed
    simpa [widen, Word.bit_single below, other] using mem_iff_bit.mp (le_iff.mp inside).2 i fixed

/-- Below a cube there are cubes of every smaller dimension. -/
theorem exists_dimension {c : Cube} {k : Nat} (small : k ≤ c.dimension) :
    ∃ d, d ≤ c ∧ d.dimension = k := by
  obtain ⟨more, size⟩ := Nat.exists_eq_add_of_le small
  induction more generalizing c with
  | zero => exact ⟨c, le_refl c, by omega⟩
  | succ more ih =>
      have positive : c.mask.positions.Nonempty := by
        rw [← Finset.card_pos, Word.card_positions]
        exact Nat.lt_of_lt_of_eq (by omega) size.symm
      obtain ⟨p, free⟩ := positive
      have free := Word.mem_positions.mp free
      have step := dimension_narrow free
      obtain ⟨d, inside, reached⟩ := ih (c := c.narrow p) (by omega) (by omega)
      exact ⟨d, le_trans inside (narrow_le free), reached⟩

/-! ## Cubes within a set -/

section Within

variable {S : List Word} {c d : Cube}

theorem Within.of_le (whole : d.Within S) (inside : c ≤ d) : c.Within S :=
  fun x member => whole x (inside x member)

theorem Within.widen {p : Nat} (below : p < 64)
    (near : c.Within S) (far : (c.mirror p).Within S) : (c.widen p).Within S := by
  intro x member
  rcases (mem_widen below).mp member with own | mirrored
  · exact near x own
  · exact far x mirrored

theorem within_point {x : Word} : (point x).Within S ↔ x ∈ S := by
  simp [Within]

theorem IsPrime.within (prime : c.IsPrime S) : c.Within S := prime.prop

theorem IsPrime.eq_of_le (prime : c.IsPrime S) (whole : d.Within S) (inside : c ≤ d) : c = d :=
  Maximal.eq_of_le prime whole inside

theorem isPrime_iff_widen :
    c.IsPrime S ↔
      c.Within S ∧ ∀ p, p < 64 → c.mask.bit p = false → ¬(c.widen p).Within S := by
  constructor
  · intro prime
    refine ⟨prime.within, fun p below held whole => ?_⟩
    have same := prime.eq_of_le whole (le_widen below)
    have grown := dimension_widen below held
    rw [← same] at grown
    omega
  · rintro ⟨whole, noStep⟩
    refine ⟨whole, fun d larger inside => ?_⟩
    by_contra differ
    have strict : c ≠ d := fun same => differ (same ▸ le_refl _)
    obtain ⟨p, below, held, step⟩ := exists_widen_le inside strict
    exact noStep p below held (Within.of_le larger step)

theorem dimension_le_size (c : Cube) : c.dimension ≤ 64 := by
  show c.mask.popCount ≤ 64
  rw [Word.popCount_eq_countP]
  exact le_of_le_of_eq List.countP_le_length List.length_range

/-- Every cube within a set lies in a prime one. -/
theorem exists_isPrime_ge (whole : c.Within S) : ∃ d, c ≤ d ∧ d.IsPrime S := by
  obtain ⟨room, size⟩ := Nat.exists_eq_add_of_le c.dimension_le_size
  induction room generalizing c with
  | zero =>
      refine ⟨c, le_refl c, whole, fun d _ inside => ?_⟩
      exact (eq_of_dimension_le inside (by have := d.dimension_le_size; omega)).ge
  | succ room ih =>
      by_cases prime : c.IsPrime S
      · exact ⟨c, le_refl c, prime⟩
      · rw [isPrime_iff_widen] at prime
        push Not at prime
        obtain ⟨p, below, held, larger⟩ := prime whole
        have grown := dimension_widen below held
        obtain ⟨d, inside, found⟩ := ih (c := c.widen p) larger (by omega)
        exact ⟨d, le_trans (le_widen below) inside, found⟩

end Within

/-! ## Cubes over an arity -/

/-- Every word of the cube is an assignment of `n` variables. -/
def Over (n : Arity) (c : Cube) : Prop := ∀ x ∈ c, n.admits x = true

section Over

variable {n : Arity} {c : Cube}

theorem Within.isOver {S : List Word} (whole : c.Within S) (admitted : ∀ x ∈ S, n.admits x = true) :
    c.Over n :=
  fun x member => admitted x (whole x member)

theorem Over.base (isOver : c.Over n) : n.admits c.base = true := isOver _ c.base_mem

theorem Over.mask (isOver : c.Over n) : n.admits c.mask = true := by
  refine Arity.admits_iff_bit.mpr fun i free => ?_
  have below := Word.lt_of_bit free
  have raised : c.base ||| Word.single i ∈ c := by
    refine mem_iff_bit.mpr fun j held => ?_
    have other : i ≠ j := by rintro rfl; simp [free] at held
    simp [Word.bit_single below, other]
  exact Arity.admits_iff_bit.mp (isOver _ raised) i (by simp [Word.bit_single below])

theorem Over.widen {p : Nat} (below : p < 64) (near : c.Over n) (far : (c.mirror p).Over n) :
    (c.widen p).Over n := by
  intro x member
  rcases (mem_widen below).mp member with own | mirrored
  · exact near x own
  · exact far x mirrored

theorem Over.dimension_le (isOver : c.Over n) : c.dimension ≤ n.size :=
  Arity.popCount_le isOver.mask

end Over

end Cube

end TwoLevel
