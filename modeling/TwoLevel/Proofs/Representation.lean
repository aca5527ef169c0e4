/-
# TwoLevel.Proofs.Representation — implicants represent cubes

An implicant keeps one subcube three ways: as the list of its words, by its mask and
by its base. `Represents` says that the three agree on a cube. It decides the
implicant (`Represents.unique`) and the cube (`Represents.cube_unique`), and reads off
every operation:

* `Represents.covers_iff`, `Represents.eval_iff`: both tests are membership;
* `Represents.ones_eq`, `Represents.literals_add`: both counts are sizes;
* `differingBit_eq_some_iff`, `combine_eq_some_iff`: two implicants combine exactly
  when one represents the mirror image of the other's cube, and what they combine
  into represents the union.

`WellBuilt.represents` concludes that every implicant that arises by combination
represents a cube, `BuiltOver.represents` that one built over the same arity throughout
represents a cube over it.
-/
import TwoLevel.Implicant
import TwoLevel.Proofs.Cube

namespace TwoLevel

set_option autoImplicit false

/-- Strictly ascending lists with the same members are one list. -/
theorem Ascending.eq_of_mem_iff {xs ys : List Word} (left : xs.Pairwise (· < ·))
    (right : ys.Pairwise (· < ·)) (same : ∀ x, x ∈ xs ↔ x ∈ ys) : xs = ys := by
  have distinct {zs : List Word} (ordered : zs.Pairwise (· < ·)) : zs.Nodup :=
    ordered.imp UInt64.ne_of_lt
  have shuffled := (List.perm_ext_iff_of_nodup (distinct left) (distinct right)).mpr same
  refine shuffled.eq_of_pairwise (fun x y _ _ less greater => ?_) left right
  exact absurd (UInt64.lt_trans less greater) (UInt64.lt_irrefl x)

attribute [ext] Implicant

namespace Implicant

/-- The implicant groups the words of a cube and describes it by mask and base. -/
structure Represents (a : Implicant) (c : Cube) : Prop where
  mask : a.mask = c.mask
  base : a.base = c.base
  ascending : a.minterms.Pairwise (· < ·)
  mem : ∀ x, x ∈ a.minterms ↔ x ∈ c

section Represents

variable {a b e : Implicant} {c d : Cube} {n : Arity}

theorem Represents.unique (first : a.Represents c) (second : b.Represents c) : a = b := by
  have minterms : a.minterms = b.minterms :=
    Ascending.eq_of_mem_iff first.ascending second.ascending fun x =>
      (first.mem x).trans (second.mem x).symm
  have mask := first.mask.trans second.mask.symm
  have base := first.base.trans second.base.symm
  exact Implicant.ext minterms mask base

theorem Represents.cube_unique (first : a.Represents c) (second : a.Represents d) : c = d :=
  Cube.ext (first.mask.symm.trans second.mask) (first.base.symm.trans second.base)

theorem Represents.eq_of_key_eq (first : a.Represents c) (second : b.Represents d)
    (same : a.key = b.key) : a = b := by
  obtain ⟨minterms, -⟩ := Prod.mk.inj same
  have cubes : c = d := by
    refine le_antisymm (fun x member => ?_) fun x member => ?_
    · exact (second.mem x).mp (minterms ▸ (first.mem x).mpr member)
    · exact (first.mem x).mp (minterms ▸ (second.mem x).mpr member)
  exact first.unique (cubes ▸ second)

theorem Represents.covers_iff (repr : a.Represents c) {x : Word} : a.covers x = true ↔ x ∈ c := by
  rw [covers, List.contains_iff_mem, repr.mem]

theorem Represents.eval_iff (repr : a.Represents c) {x : Word} : a.eval x = true ↔ x ∈ c := by
  rw [eval, beq_iff_eq, repr.mask, repr.base, Word.eq_iff_bit, Cube.mem_iff_bit]
  refine forall_congr' fun i => ?_
  rw [Word.bit_and_not, Word.bit_xor, Word.bit_zero]
  cases c.mask.bit i <;> cases x.bit i <;> cases c.base.bit i <;> simp

@[simp] theorem bit_care (a : Implicant) (n : Arity) (i : Nat) :
    (a.care n).bit i = (!a.mask.bit i && decide (i < n.size)) := by
  rw [care, Word.bit_not_and, Arity.bit_mask]

theorem Represents.ones_eq (repr : a.Represents c) (isOver : c.Over n) :
    a.ones n = c.base.popCount := by
  have view : a.base &&& a.care n = c.base := by
    refine Word.eq_of_bit_eq fun i => ?_
    rw [Word.bit_and, bit_care, repr.mask, repr.base]
    cases set : c.base.bit i with
    | false => rfl
    | true =>
        simp [Cube.mask_bit_eq_false set, Arity.admits_iff_bit.mp isOver.base i set]
  rw [ones, view]

theorem Represents.literals_add (repr : a.Represents c) (isOver : c.Over n) :
    a.literals n + c.dimension = n.size := by
  rw [literals, care, repr.mask]
  exact Arity.popCount_complement isOver.mask

theorem represents_ofMinterm (m : Word) : (ofMinterm m).Represents (Cube.point m) where
  mask := rfl
  base := rfl
  ascending := List.pairwise_singleton _ m
  mem x := by rw [Cube.mem_point]; exact List.mem_singleton

/-! ## Combination -/

theorem difference_bit (left : a.Represents c) (right : b.Represents d) (i : Nat) :
    (difference a b n).bit i =
      ((c.base.bit i ^^ d.base.bit i) && (!c.mask.bit i && decide (i < n.size))) := by
  rw [difference, Word.bit_and, Word.bit_xor, bit_care, left.mask, left.base, right.base]

/-- The difference is one position exactly if the cubes mirror each other there. -/
theorem difference_eq_single_iff (left : a.Represents c) (right : b.Represents d)
    (overLeft : c.Over n) (overRight : d.Over n) (masks : d.mask = c.mask) {p : Nat}
    (below : p < 64) :
    difference a b n = Word.single p ↔ p < n.size ∧ c.mask.bit p = false ∧ d = c.mirror p := by
  have bits : difference a b n = Word.single p ↔
      ∀ i, ((c.base.bit i ^^ d.base.bit i) && (!c.mask.bit i && decide (i < n.size))) =
        decide (p = i) := by
    rw [Word.eq_iff_bit]
    refine forall_congr' fun i => ?_
    rw [difference_bit left right, Word.bit_single below]
  rw [bits]
  constructor
  · intro only
    have own := only p
    simp only [decide_true, Bool.and_eq_true, Bool.not_eq_true', decide_eq_true_eq] at own
    obtain ⟨-, held, used⟩ := own
    refine ⟨used, held, Cube.ext masks (Word.eq_of_bit_eq fun i => ?_)⟩
    rw [Cube.mirror_base_bit below]
    cases free : c.mask.bit i with
    | true => simp [Cube.base_bit (c := d) (masks ▸ free)]
    | false =>
        rcases Nat.lt_or_ge i n.size with inUse | beyond
        · have here := only i
          simp only [free, inUse, Bool.not_false, decide_true, Bool.and_true] at here
          rw [← here]
          cases c.base.bit i <;> cases d.base.bit i <;> rfl
        · -- beyond the arity both bases are clear
          have other : p ≠ i := by omega
          simp [Arity.bit_eq_false_of_admits overLeft.base beyond,
            Arity.bit_eq_false_of_admits overRight.base beyond, other]
  · rintro ⟨used, held, rfl⟩ i
    rw [Cube.mirror_base_bit below]
    by_cases same : p = i
    · subst same; simp [held, used]
    · cases c.mask.bit i <;> simp [same]

/-- Two implicants differ in one position when their cubes mirror each other there. -/
theorem differingBit_eq_some_iff (left : a.Represents c) (right : b.Represents d)
    (overLeft : c.Over n) (overRight : d.Over n) {w : Word} :
    a.differingBit b n = some w ↔
      ∃ p, p < n.size ∧ c.mask.bit p = false ∧ d = c.mirror p ∧ w = Word.single p := by
  have single := difference_eq_single_iff left right overLeft overRight
  constructor
  · intro found
    simp only [differingBit] at found
    split at found <;> [skip; cases found]
    rename_i masks
    split at found <;> [skip; cases found]
    rename_i one
    obtain ⟨p, below, only⟩ := Word.popCount_eq_one_iff.mp one
    have masks : d.mask = c.mask := by rw [← left.mask, ← right.mask, masks]
    obtain ⟨used, held, mirrored⟩ := (single masks below).mp only
    exact ⟨p, used, held, mirrored, only ▸ (Option.some.inj found).symm⟩
  · rintro ⟨p, used, held, mirrored, rfl⟩
    have below : p < 64 := lt_of_lt_of_le used n.size_le
    have masks : d.mask = c.mask := by rw [mirrored]; rfl
    have only := (single masks below).mpr ⟨used, held, mirrored⟩
    have one : (difference a b n).popCount = 1 := Word.popCount_eq_one_iff.mpr ⟨p, below, only⟩
    have same : a.mask = b.mask := by rw [left.mask, right.mask, masks]
    rw [differingBit, if_pos same, if_pos one, only]

theorem isSome_combine (a b : Implicant) (n : Arity) :
    (a.combine b n).isSome = (a.differingBit b n).isSome := by
  unfold combine
  cases a.differingBit b n <;> rfl

theorem combine_eq_none_iff (a b : Implicant) (n : Arity) :
    a.combine b n = none ↔ a.differingBit b n = none := by
  rw [← Option.not_isSome_iff_eq_none, ← Option.not_isSome_iff_eq_none, isSome_combine]

theorem foldl_and_bit (xs : List Word) (start : Word) (i : Nat) :
    (xs.foldl (· &&& ·) start).bit i = (start.bit i && xs.all (·.bit i)) := by
  induction xs generalizing start with
  | nil => simp
  | cons x xs ih => rw [List.foldl_cons, ih, Word.bit_and, List.all_cons, Bool.and_assoc]

/-- The conjunction of the words of a cube is its base. -/
theorem foldl_and_eq_base {xs : List Word} (listed : ∀ x, x ∈ xs ↔ x ∈ c) (isOver : c.Over n) :
    xs.foldl (· &&& ·) n.mask = c.base := by
  refine Word.eq_of_bit_eq fun i => ?_
  rw [foldl_and_bit, Arity.bit_mask]
  cases set : c.base.bit i with
  | false =>
      have some : xs.all (·.bit i) = false :=
        List.all_eq_false.mpr ⟨c.base, (listed _).mpr c.base_mem, by simp [set]⟩
      rw [some, Bool.and_false]
  | true =>
      have held := Cube.mask_bit_eq_false set
      have all : xs.all (·.bit i) = true := by
        refine List.all_eq_true.mpr fun x member => ?_
        rw [Cube.mem_iff_bit.mp ((listed x).mp member) i held, set]
      simp [all, Arity.admits_iff_bit.mp isOver.base i set]

/-- The lists, masks and words of mirrored cubes joined represent the union. -/
theorem represents_widen {p : Nat} (left : a.Represents c) (right : b.Represents (c.mirror p))
    (overLeft : c.Over n) (overRight : (c.mirror p).Over n) (below : p < 64) :
    (Implicant.mk (Ascending.union a.minterms b.minterms) (a.mask ||| b.mask ||| Word.single p)
      ((Ascending.union a.minterms b.minterms).foldl (· &&& ·) n.mask)).Represents (c.widen p) := by
  have listed x : x ∈ Ascending.union a.minterms b.minterms ↔ x ∈ c.widen p := by
    rw [Ascending.mem_union, left.mem, right.mem, Cube.mem_widen below]
  refine ⟨?_, ?_, Ascending.pairwise_union left.ascending right.ascending, listed⟩
  · show a.mask ||| b.mask ||| Word.single p = c.mask ||| Word.single p
    rw [left.mask, right.mask]
    show c.mask ||| c.mask ||| Word.single p = _
    rw [UInt64.or_self]
  · exact foldl_and_eq_base listed (Cube.Over.widen below overLeft overRight)

/-- Implicants of mirrored cubes combine into one of the union. -/
theorem exists_combine {p : Nat} (left : a.Represents c) (right : b.Represents (c.mirror p))
    (overLeft : c.Over n) (overRight : (c.mirror p).Over n) (used : p < n.size)
    (held : c.mask.bit p = false) :
    ∃ e, a.combine b n = some e ∧ e.Represents (c.widen p) := by
  have found := (differingBit_eq_some_iff left right overLeft overRight).mpr
    ⟨p, used, held, rfl, rfl⟩
  refine ⟨_, by rw [combine, found], ?_⟩
  exact represents_widen left right overLeft overRight (lt_of_lt_of_le used n.size_le)

/-- Only implicants of mirrored cubes combine, and only into the union. -/
theorem combine_eq_some_iff (left : a.Represents c) (right : b.Represents d)
    (overLeft : c.Over n) (overRight : d.Over n) :
    a.combine b n = some e ↔
      ∃ p, p < n.size ∧ c.mask.bit p = false ∧ d = c.mirror p ∧ e.Represents (c.widen p) := by
  constructor
  · intro merged
    unfold combine at merged
    split at merged
    · simp at merged
    · rename_i position found
      obtain ⟨p, used, held, rfl, rfl⟩ :=
        (differingBit_eq_some_iff left right overLeft overRight).mp found
      have below : p < 64 := lt_of_lt_of_le used n.size_le
      have reached := represents_widen left right overLeft overRight below
      rw [Option.some.inj merged] at reached
      exact ⟨p, used, held, rfl, reached⟩
  · rintro ⟨p, used, held, rfl, reached⟩
    obtain ⟨e', merged, again⟩ := exists_combine left right overLeft overRight used held
    rw [merged, again.unique reached]

end Represents

/-- An implicant that arises by combination represents a cube. -/
theorem WellBuilt.represents {a : Implicant} (built : a.WellBuilt) : ∃ c, a.Represents c := by
  induction built with
  | ofMinterm m => exact ⟨Cube.point m, represents_ofMinterm m⟩
  | @combine a b e n left right within merged ihLeft ihRight =>
      obtain ⟨c, reprLeft⟩ := ihLeft
      obtain ⟨d, reprRight⟩ := ihRight
      have overLeft : c.Over n := fun x member =>
        within x (List.mem_append_left _ ((reprLeft.mem x).mpr member))
      have overRight : d.Over n := fun x member =>
        within x (List.mem_append_right _ ((reprRight.mem x).mpr member))
      obtain ⟨p, -, -, -, reached⟩ :=
        (combine_eq_some_iff reprLeft reprRight overLeft overRight).mp merged
      exact ⟨c.widen p, reached⟩

/-- Implicants that come from assignments of `n` variables by combination over `n`. -/
inductive BuiltOver (n : Arity) : Implicant → Prop
  | ofMinterm {m : Word} (below : m.toNat < 2 ^ n.size) : BuiltOver n (ofMinterm m)
  | combine {a b e : Implicant} (left : BuiltOver n a) (right : BuiltOver n b)
      (merged : a.combine b n = some e) : BuiltOver n e

theorem BuiltOver.represents {n : Arity} {a : Implicant} (built : a.BuiltOver n) :
    ∃ c, a.Represents c ∧ c.Over n := by
  induction built with
  | @ofMinterm m below =>
      refine ⟨Cube.point m, represents_ofMinterm m, fun x member => ?_⟩
      rw [Cube.mem_point.mp member]
      exact Arity.admits_iff_lt.mpr below
  | combine left right merged ihLeft ihRight =>
      obtain ⟨c, reprLeft, overLeft⟩ := ihLeft
      obtain ⟨d, reprRight, overRight⟩ := ihRight
      obtain ⟨p, used, -, rfl, reached⟩ :=
        (combine_eq_some_iff reprLeft reprRight overLeft overRight).mp merged
      have below := lt_of_lt_of_le used n.size_le
      exact ⟨c.widen p, reached, Cube.Over.widen below overLeft overRight⟩

end Implicant

end TwoLevel
