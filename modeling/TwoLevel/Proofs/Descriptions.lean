/-
# TwoLevel.Proofs.Descriptions — an implicant by its points, its mask and its base

Consumers read an implicant in three ways: by the list of its minterms, which they search
by halving, by its mask and by its base. For implicants that arise by combination the three
say the same, because each of them is read off one cube:

* the mask has the positions in which two points of the cube differ (`Cube.mask_bit_iff`);
* the base is the least point (`Cube.base_le`) and the conjunction of all
  (`Implicant.Represents.base_eq_foldl`);
* every free position doubles the number of points (`Cube.length_of_mem_iff`): one half
  of a cube has the position clear, its mirror image has it set.

The ascending list of the points decides the cube, so implicants with the same minterms are
the same in every field, whatever combinations they came from (`wellBuilt_invariant`).
-/
import TwoLevel.Proofs.Primes

namespace TwoLevel

set_option autoImplicit false

/-! ## Search by halving -/

namespace Ascending

/-- Whether `x` is in an ascending list: look in the middle, then in the half that is left,
at most `limit` times. -/
def bisect (x : Word) : Nat → List Word → Bool
  | 0, _ => false
  | limit + 1, xs =>
      match xs.drop (xs.length / 2) with
      | [] => false
      | y :: above =>
          if x = y then true
          else if x < y then bisect x limit (xs.take (xs.length / 2))
          else bisect x limit above

/-- An entry other than the middle one is in the half that comparison points to. -/
theorem mem_of_split {x y : Word} {below above : List Word}
    (ordered : (below ++ y :: above).Pairwise (· < ·)) (other : x ≠ y) :
    x ∈ below ++ y :: above ↔ x ∈ if x < y then below else above := by
  obtain ⟨-, rest, earlier⟩ := List.pairwise_append.mp ordered
  have later := (List.pairwise_cons.mp rest).1
  simp only [List.mem_append, List.mem_cons, other, false_or]
  split
  · rename_i less
    refine or_iff_left fun member => ?_
    exact absurd (UInt64.lt_trans less (later x member)) (UInt64.lt_irrefl x)
  · rename_i notLess
    exact or_iff_right fun member => notLess (earlier x member y List.mem_cons_self)

/-- On an ascending list a search by halving finds what is there. -/
theorem bisect_eq_contains {x : Word} {limit : Nat} {xs : List Word}
    (ordered : xs.Pairwise (· < ·)) (enough : xs.length ≤ limit) :
    bisect x limit xs = xs.contains x := by
  induction limit generalizing xs with
  | zero =>
      obtain rfl := List.length_eq_zero_iff.mp (Nat.le_zero.mp enough)
      rfl
  | succ limit ih =>
      have whole := List.take_append_drop (xs.length / 2) xs
      have below := List.length_take_le (xs.length / 2) xs
      unfold bisect
      split
      · rename_i none
        have size : xs.length ≤ xs.length / 2 := List.drop_eq_nil_iff.mp none
        obtain rfl : xs = [] := List.length_eq_zero_iff.mp (by omega)
        rfl
      · rename_i y above found
        rw [found] at whole
        have size := congrArg List.length whole
        simp only [List.length_append, List.length_cons] at size
        have ordered' := ordered
        rw [← whole] at ordered'
        obtain ⟨low, rest, -⟩ := List.pairwise_append.mp ordered'
        by_cases same : x = y
        · rw [if_pos same, eq_comm, List.contains_iff_mem, ← whole, same]
          exact List.mem_append_right _ List.mem_cons_self
        · have half := mem_of_split ordered' same
          rw [whole] at half
          rw [if_neg same, Bool.eq_iff_iff, List.contains_iff_mem, half]
          split
          · rw [ih low (by omega), List.contains_iff_mem]
          · rw [ih (List.pairwise_cons.mp rest).2 (by omega), List.contains_iff_mem]

end Ascending

/-! ## The points of a cube -/

namespace Cube

variable {c : Cube} {p : Nat} {x : Word}

/-- The free positions are those in which two points differ. -/
theorem mask_bit_iff {i : Nat} :
    c.mask.bit i = true ↔ ∃ x ∈ c, ∃ y ∈ c, x.bit i ≠ y.bit i := by
  constructor
  · intro free
    have below := Word.lt_of_bit free
    refine ⟨c.base, c.base_mem, c.base ^^^ Word.single i, ?_, ?_⟩
    · refine mem_iff_bit.mpr fun j held => ?_
      have other : i ≠ j := by rintro rfl; simp [free] at held
      simp [Word.bit_single below, other]
    · simp [Word.bit_single below]
  · rintro ⟨x, first, y, second, differ⟩
    by_contra held
    have held := Bool.eq_false_of_not_eq_true held
    exact differ ((mem_iff_bit.mp first i held).trans (mem_iff_bit.mp second i held).symm)

/-- The base is the least point. -/
theorem base_le (member : x ∈ c) : c.base ≤ x := by
  rw [UInt64.le_iff_toNat_le, ← mem_def.mp member, UInt64.toNat_and]
  exact Nat.and_le_left

theorem mem_narrow (free : c.mask.bit p = true) :
    x ∈ c.narrow p ↔ x ∈ c ∧ x.bit p = false := by
  have below := Word.lt_of_bit free
  have held := narrow_mask_bit (c := c) below
  have clear : (c.narrow p).base.bit p = false := base_bit (c := c) free
  constructor
  · intro member
    exact ⟨narrow_le free x member, (mem_iff_bit.mp member p held).trans clear⟩
  · rintro ⟨member, unset⟩
    refine mem_iff_bit.mpr fun i fixed => ?_
    by_cases same : p = i
    · subst same; rw [unset, clear]
    · refine mem_iff_bit.mp member i ?_
      simpa [narrow, Word.bit_single below, same] using fixed

/-- Half of a cube has a free position clear, the mirror image of that half has it set. -/
theorem mem_mirror_narrow (free : c.mask.bit p = true) :
    x ∈ (c.narrow p).mirror p ↔ x ∈ c ∧ x.bit p = true := by
  have below := Word.lt_of_bit free
  have moved : x ^^^ Word.single p ∈ c ↔ x ∈ c := by
    rw [mem_iff_bit, mem_iff_bit]
    refine forall_congr' fun i => imp_congr_right fun held => ?_
    have other : p ≠ i := by rintro rfl; simp [free] at held
    simp [Word.bit_single below, other]
  rw [mem_mirror below, mem_narrow free, moved]
  simp [Word.bit_single below]

/-- A cube has twice as many points for every free position. -/
theorem length_of_mem_iff {xs : List Word} (once : xs.Nodup) (listed : ∀ x, x ∈ xs ↔ x ∈ c) :
    xs.length = 2 ^ c.dimension := by
  obtain ⟨d, size⟩ : ∃ d, c.dimension = d := ⟨_, rfl⟩
  induction d generalizing c xs with
  | zero =>
      have single : xs.Perm [c.base] := by
        refine (List.perm_ext_iff_of_nodup once (List.nodup_singleton _)).mpr fun x => ?_
        rw [listed, eq_point size, mem_point]
        exact List.mem_singleton.symm
      rw [single.length_eq, size]
      rfl
  | succ d ih =>
      have positive : c.mask.positions.Nonempty := by
        rw [← Finset.card_pos, Word.card_positions]
        exact Nat.lt_of_lt_of_eq (Nat.succ_pos d) size.symm
      obtain ⟨p, free⟩ := positive
      have free := Word.mem_positions.mp free
      have step := dimension_narrow free
      have smaller : (c.narrow p).dimension = d := by omega
      have clear : (xs.filter fun x => !x.bit p).length = 2 ^ d := by
        rw [← smaller]
        refine ih (once.filter _) (fun x => ?_) smaller
        rw [List.mem_filter, listed, mem_narrow free, Bool.not_eq_true']
      have set : (xs.filter fun x => x.bit p).length = 2 ^ d := by
        have mirrored : ((c.narrow p).mirror p).dimension = d := smaller
        rw [← mirrored]
        refine ih (once.filter _) (fun x => ?_) mirrored
        rw [List.mem_filter, listed, mem_mirror_narrow free]
      have halves := List.length_eq_length_filter_add (l := xs) fun x => x.bit p
      rw [halves, set, clear, size, Nat.pow_succ]
      omega

end Cube

/-! ## Implicants that arise by combination -/

namespace Implicant

variable {a : Implicant} {c : Cube}

theorem Represents.base_mem (repr : a.Represents c) : a.base ∈ a.minterms := by
  rw [repr.mem, repr.base]
  exact c.base_mem

theorem Represents.base_eq_foldl (repr : a.Represents c) :
    a.base = a.minterms.foldl (· &&& ·) (~~~0) := by
  -- among sixty-four variables every word is an assignment
  have isOver : c.Over ⟨64, Nat.le_refl 64⟩ := by
    intro x _
    exact Arity.admits_iff_lt.mpr x.toNat_lt
  rw [repr.base]
  exact (foldl_and_eq_base repr.mem isOver).symm

theorem Represents.length_minterms (repr : a.Represents c) :
    a.minterms.length = 2 ^ a.mask.popCount := by
  rw [repr.mask]
  exact Cube.length_of_mem_iff (repr.ascending.imp UInt64.ne_of_lt) repr.mem

theorem Represents.bisect_eq_eval (repr : a.Represents c) (x : Word) :
    Ascending.bisect x a.minterms.length a.minterms = a.eval x := by
  rw [Ascending.bisect_eq_contains repr.ascending (Nat.le_refl _), Bool.eq_iff_iff,
    repr.eval_iff, List.contains_iff_mem]
  exact repr.mem x

theorem Represents.covers_eq_eval (repr : a.Represents c) (x : Word) : a.covers x = a.eval x := by
  rw [Bool.eq_iff_iff, repr.covers_iff, repr.eval_iff]

/-- Implicants of cubes with the same minterms are the same. -/
theorem Represents.eq_of_minterms_eq {b : Implicant} {d : Cube} (first : a.Represents c)
    (second : b.Represents d) (same : a.minterms = b.minterms) : a = b := by
  have cubes : c = d := by
    apply le_antisymm
    · intro x member
      exact (second.mem x).mp (same ▸ (first.mem x).mpr member)
    · intro x member
      exact (first.mem x).mp (same ▸ (second.mem x).mpr member)
  exact first.unique (cubes ▸ second)

/-- **The invariant of implicants.** An implicant that arises by combination lists its
minterms in ascending order, one at least. Its base has nothing under the mask, and is the
conjunction of the minterms and the least of them. The mask marks exactly the positions in
which two minterms differ. The minterms are all the words that agree with the base outside
the mask, two to the number of marked positions. Search in the list and comparison with
base and mask give the same answer on every word, and the minterms decide the implicant. -/
theorem wellBuilt_invariant {a : Implicant} (built : a.WellBuilt) :
    (a.minterms.Pairwise (· < ·) ∧ a.minterms ≠ []) ∧
    (a.base &&& a.mask = 0 ∧ a.base = a.minterms.foldl (· &&& ·) (~~~0) ∧
      a.base ∈ a.minterms ∧ ∀ m ∈ a.minterms, a.base ≤ m) ∧
    (∀ i, a.mask.bit i = true ↔ ∃ x ∈ a.minterms, ∃ y ∈ a.minterms, x.bit i ≠ y.bit i) ∧
    ((∀ x : Word, x ∈ a.minterms ↔ x &&& ~~~a.mask = a.base) ∧
      a.minterms.length = 2 ^ a.mask.popCount) ∧
    (∀ x : Word, a.covers x = a.eval x ∧
      Ascending.bisect x a.minterms.length a.minterms = a.eval x) ∧
    ∀ b : Implicant, b.WellBuilt → b.minterms = a.minterms → b = a := by
  obtain ⟨c, repr⟩ := built.represents
  have least : ∀ m ∈ a.minterms, a.base ≤ m := by
    intro m member
    rw [repr.base]
    exact Cube.base_le ((repr.mem m).mp member)
  refine ⟨⟨repr.ascending, List.ne_nil_of_mem repr.base_mem⟩,
    ⟨?_, repr.base_eq_foldl, repr.base_mem, least⟩, fun i => ?_,
    ⟨fun x => ?_, repr.length_minterms⟩,
    fun x => ⟨repr.covers_eq_eval x, repr.bisect_eq_eval x⟩, fun b other same => ?_⟩
  · rw [repr.base, repr.mask]
    exact c.clear
  · simp only [repr.mem, repr.mask]
    exact Cube.mask_bit_iff
  · rw [repr.mem, Cube.mem_def, repr.mask, repr.base]
  · obtain ⟨d, reprOther⟩ := other.represents
    exact reprOther.eq_of_minterms_eq repr same

/-- The square of `5`, `7`, `13` and `15`, combined by rows and by columns. -/
theorem wellBuilt_invariant_square :
    ∃ rows columns : Implicant, rows.WellBuilt ∧ columns.WellBuilt ∧
      rows.minterms = [5, 7, 13, 15] ∧ columns.minterms = [5, 7, 13, 15] ∧
      columns = rows ∧ rows.mask.popCount = 2 ∧ rows.covers 13 = rows.eval 13 := by
  let n : Arity := ⟨4, by decide⟩
  have join {a b e : Implicant} (left : a.WellBuilt) (right : b.WellBuilt)
      (within : (a.minterms ++ b.minterms).all n.admits = true)
      (merged : a.combine b n = some e) : e.WellBuilt :=
    .combine n left right (List.all_eq_true.mp within) merged
  have pair (x y : Word) (e : Implicant) (within : ([x] ++ [y]).all n.admits = true)
      (merged : (ofMinterm x).combine (ofMinterm y) n = some e) : e.WellBuilt :=
    join (.ofMinterm x) (.ofMinterm y) within merged
  have rows : WellBuilt ⟨[5, 7, 13, 15], 10, 5⟩ :=
    join (pair 5 7 ⟨[5, 7], 2, 5⟩ (by decide) (by decide))
      (pair 13 15 ⟨[13, 15], 2, 13⟩ (by decide) (by decide)) (by decide) (by decide)
  have columns : WellBuilt ⟨[5, 7, 13, 15], 10, 5⟩ :=
    join (pair 5 13 ⟨[5, 13], 8, 5⟩ (by decide) (by decide))
      (pair 7 15 ⟨[7, 15], 8, 7⟩ (by decide) (by decide)) (by decide) (by decide)
  obtain ⟨-, -, -, -, tests, only⟩ := wellBuilt_invariant rows
  exact ⟨_, _, rows, columns, rfl, rfl, only _ columns rfl, by decide, (tests 13).1⟩

end Implicant

end TwoLevel
