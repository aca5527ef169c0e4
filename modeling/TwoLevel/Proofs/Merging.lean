/-
# TwoLevel.Proofs.Merging — one round of merging

A round looks for partners in the adjacent bucket only. Cubes that mirror each other
differ in one positive literal (`ones_adjacent`), so nothing is missed by that: over
buckets by number of positive literals (`Bucketed`), the merges are those of all pairs
(`mem_merges`), and what is left over combines with nothing present (`mem_unused`).

`bucketed_distinct` is what happens to the outcome: distributed over buckets again, and
without repetitions, every implicant is there once.
-/
import Mathlib.Data.List.GetD
import TwoLevel.Prime.Round
import TwoLevel.Proofs.Repetition

namespace TwoLevel

set_option autoImplicit false

variable {n : Arity} {buckets : List (List Implicant)}

/-! ## Positive literals -/

theorem Implicant.ones_le (a : Implicant) (n : Arity) : a.ones n ≤ n.size := by
  rw [← n.popCount_mask]
  refine Word.popCount_le fun i set => ?_
  rw [Implicant.care, Word.bit_and, Word.bit_not_and, Bool.and_eq_true, Bool.and_eq_true] at set
  exact set.2.2

/-- The mirror image has one more position set in its base if `p` was clear. -/
theorem Cube.popCount_mirror_base {c : Cube} {p : Nat} (below : p < 64)
    (held : c.mask.bit p = false) (low : c.base.bit p = false) :
    (c.mirror p).base.popCount = c.base.popCount + 1 := by
  have raised : (c.mirror p).base = c.base ||| Word.single p := by
    refine Word.eq_of_bit_eq fun i => ?_
    show ((c.base ^^^ Word.single p) &&& ~~~c.mask).bit i = _
    rw [Word.bit_and_not, Word.bit_xor, Word.bit_or, Word.bit_single below]
    by_cases same : p = i
    · subst same; simp [held, low]
    · cases free : c.mask.bit i with
      | true => simp [same, Cube.base_bit free]
      | false => simp [same]
  have grown := Word.popCount_or_single c.base below
  rw [low] at grown
  rw [raised, grown]
  rfl

/-- Mirrored cubes differ by one positive literal, the one with `p` clear having fewer. -/
theorem ones_adjacent {a b : Implicant} {c : Cube} {p : Nat} (left : a.Represents c)
    (right : b.Represents (c.mirror p)) (overLeft : c.Over n) (overRight : (c.mirror p).Over n)
    (below : p < 64) (held : c.mask.bit p = false) :
    if c.base.bit p then a.ones n = b.ones n + 1 else b.ones n = a.ones n + 1 := by
  rw [left.ones_eq overLeft, right.ones_eq overRight]
  split
  · rename_i high
    have low : (c.mirror p).base.bit p = false := by simp [Cube.mirror_base_bit below, high]
    have back := Cube.popCount_mirror_base (c := c.mirror p) below held low
    rwa [Cube.mirror_mirror] at back
  · rename_i low
    exact Cube.popCount_mirror_base below held (Bool.eq_false_of_not_eq_true low)

/-! ## Buckets -/

theorem mem_flatten_iff_getD {a : Implicant} :
    a ∈ buckets.flatten ↔ ∃ i, a ∈ buckets.getD i [] := by
  rw [List.mem_flatten]
  constructor
  · rintro ⟨bucket, known, member⟩
    obtain ⟨i, bound, rfl⟩ := List.getElem_of_mem known
    exact ⟨i, by rwa [List.getD_eq_getElem _ _ bound]⟩
  · rintro ⟨i, member⟩
    by_cases bound : i < buckets.length
    · rw [List.getD_eq_getElem _ _ bound] at member
      exact ⟨_, List.getElem_mem bound, member⟩
    · rw [List.getD_eq_default _ _ (Nat.not_lt.mp bound)] at member
      cases member

/-- Buckets of cubes over `n` by their number of positive literals. -/
structure Bucketed (n : Arity) (buckets : List (List Implicant)) : Prop where
  cubes : ∀ a ∈ buckets.flatten, ∃ c, a.Represents c ∧ c.Over n
  ones : ∀ i, ∀ a ∈ buckets.getD i [], a.ones n = i

namespace Bucketed

theorem mem_getD (bucketed : Bucketed n buckets) {a : Implicant} {i : Nat} :
    a ∈ buckets.getD i [] ↔ a ∈ buckets.flatten ∧ a.ones n = i := by
  constructor
  · intro member
    exact ⟨mem_flatten_iff_getD.mpr ⟨i, member⟩, bucketed.ones i a member⟩
  · rintro ⟨present, rfl⟩
    obtain ⟨j, member⟩ := mem_flatten_iff_getD.mp present
    rwa [bucketed.ones j a member]

end Bucketed

theorem bucketsByOnes_getD (implicants : List Implicant) (k : Nat) :
    (bucketsByOnes n implicants).getD k [] =
      if k ≤ n.size then implicants.filter (fun a => a.ones n == k) else [] := by
  rw [bucketsByOnes_eq]
  split
  · rename_i used
    rw [List.getD_eq_getElem _ _ (by simpa using Nat.lt_succ_of_le used)]
    simp
  · rename_i beyond
    refine List.getD_eq_default _ _ ?_
    rw [List.length_map, List.length_range]
    exact Nat.lt_of_not_le beyond

theorem mem_bucketsByOnes_getD {implicants : List Implicant} {a : Implicant} {k : Nat} :
    a ∈ (bucketsByOnes n implicants).getD k [] ↔ a ∈ implicants ∧ a.ones n = k := by
  rw [bucketsByOnes_getD]
  split
  · rw [List.mem_filter, beq_iff_eq]
  · rename_i beyond
    have small := a.ones_le n
    constructor
    · intro member; cases member
    · rintro ⟨-, rfl⟩; exact absurd small beyond

theorem map_distinct_getD (i : Nat) :
    (buckets.map distinct).getD i [] = distinct (buckets.getD i []) :=
  List.getD_map buckets [] distinct

/-- Distributing cubes over buckets and dropping repetitions keeps every one, once. -/
theorem bucketed_distinct {implicants : List Implicant}
    (cubes : ∀ a ∈ implicants, ∃ c, a.Represents c ∧ c.Over n) :
    Bucketed n ((bucketsByOnes n implicants).map distinct) ∧
      ((bucketsByOnes n implicants).map distinct).flatten.Nodup ∧
      ∀ a, a ∈ ((bucketsByOnes n implicants).map distinct).flatten ↔ a ∈ implicants := by
  have inBucket i a : a ∈ ((bucketsByOnes n implicants).map distinct).getD i [] ↔
      a ∈ implicants ∧ a.ones n = i := by
    rw [map_distinct_getD, mem_distinct, mem_bucketsByOnes_getD]
    intro b member
    obtain ⟨c, repr, -⟩ := cubes b (mem_bucketsByOnes_getD.mp member).1
    exact ⟨c, repr⟩
  have present a : a ∈ ((bucketsByOnes n implicants).map distinct).flatten ↔ a ∈ implicants := by
    rw [mem_flatten_iff_getD]
    constructor
    · rintro ⟨i, member⟩; exact ((inBucket i a).mp member).1
    · intro member; exact ⟨a.ones n, (inBucket _ a).mpr ⟨member, rfl⟩⟩
  refine ⟨⟨fun a member => cubes a ((present a).mp member), fun i a member =>
    ((inBucket i a).mp member).2⟩, ?_, present⟩
  rw [List.nodup_flatten]
  constructor
  · intro bucket known
    obtain ⟨source, -, rfl⟩ := List.mem_map.mp known
    exact distinct_nodup source
  · rw [List.pairwise_iff_getElem]
    intro i j boundI boundJ less a left right
    rw [← List.getD_eq_getElem _ [] boundI] at left
    rw [← List.getD_eq_getElem _ [] boundJ] at right
    have first := ((inBucket i a).mp left).2
    have second := ((inBucket j a).mp right).2
    omega

/-! ## Merges and leftovers -/

theorem Merge.mem_between {lower upper : List Implicant} {m : Merge} :
    m ∈ Merge.between n lower upper ↔
      m.left ∈ lower ∧ m.right ∈ upper ∧ m.left.combine m.right n = some m.result := by
  rw [Merge.between_eq, List.mem_flatMap]
  constructor
  · rintro ⟨a, low, found⟩
    obtain ⟨b, high, merged⟩ := List.mem_filterMap.mp found
    obtain ⟨e, result, rfl⟩ := Option.map_eq_some_iff.mp merged
    exact ⟨low, high, result⟩
  · rintro ⟨low, high, merged⟩
    refine ⟨m.left, low, List.mem_filterMap.mpr ⟨m.right, high, ?_⟩⟩
    rw [merged]
    rfl

theorem Merge.mem_ofBuckets {m : Merge} :
    m ∈ Merge.ofBuckets n buckets ↔
      ∃ i, m.left ∈ buckets.getD i [] ∧ m.right ∈ buckets.getD (i + 1) [] ∧
        m.left.combine m.right n = some m.result := by
  induction buckets with
  | nil => simp [Merge.ofBuckets]
  | cons lower rest ih =>
      cases rest with
      | nil => simp [Merge.ofBuckets]
      | cons upper rest =>
          rw [Merge.ofBuckets, List.mem_append, Merge.mem_between, ih]
          constructor
          · rintro (first | ⟨i, later⟩)
            · exact ⟨0, first⟩
            · exact ⟨i + 1, later⟩
          · rintro ⟨_ | i, found⟩
            · exact .inl found
            · exact .inr ⟨i, found⟩

theorem Round.meets_eq_false_iff {implicants : List Implicant} {a : Implicant} :
    Round.meets n (ByMask.ofList implicants) a = false ↔
      ∀ b ∈ implicants, a.differingBit b n = none := by
  rw [Round.meets_ofList, List.any_eq_false]
  simp only [Bool.not_eq_true, Option.isSome_eq_false_iff, Option.isNone_iff_eq_none]

theorem Round.mem_unusedFrom {below : List Implicant} {a : Implicant} :
    a ∈ Round.unusedFrom n (ByMask.ofList below) buckets ↔
      ∃ i, a ∈ buckets.getD i [] ∧
        (∀ b ∈ (below :: buckets).getD i [], a.differingBit b n = none) ∧
        ∀ b ∈ buckets.getD (i + 1) [], a.differingBit b n = none := by
  induction buckets generalizing below with
  | nil => simp [Round.unusedFrom]
  | cons bucket rest ih =>
      have above : rest.headD [] = rest.getD 0 [] := by cases rest <;> rfl
      simp only [Round.unusedFrom, List.mem_append, List.mem_filter, ih, Bool.not_eq_true',
        Bool.or_eq_false_iff, Round.meets_eq_false_iff, above]
      constructor
      · rintro (⟨member, low, high⟩ | ⟨i, later⟩)
        · exact ⟨0, member, low, high⟩
        · exact ⟨i + 1, later⟩
      · rintro ⟨_ | i, found⟩
        · exact .inl found
        · exact .inr ⟨i, found⟩

namespace Bucketed

/-- Combinable implicants sit in adjacent buckets. -/
theorem adjacent (bucketed : Bucketed n buckets) {a b : Implicant} (left : a ∈ buckets.flatten)
    (right : b ∈ buckets.flatten) (near : a.differingBit b n ≠ none) :
    b.ones n = a.ones n + 1 ∨ a.ones n = b.ones n + 1 := by
  obtain ⟨c, reprLeft, overLeft⟩ := bucketed.cubes a left
  obtain ⟨d, reprRight, overRight⟩ := bucketed.cubes b right
  obtain ⟨w, found⟩ := Option.ne_none_iff_exists'.mp near
  obtain ⟨p, used, held, rfl, -⟩ :=
    (Implicant.differingBit_eq_some_iff reprLeft reprRight overLeft overRight).mp found
  have below : p < 64 := lt_of_lt_of_le used n.size_le
  have step := ones_adjacent reprLeft reprRight overLeft overRight below held
  split at step
  · exact .inr step
  · exact .inl step

/-- The merges of adjacent buckets are those of all pairs. -/
theorem mem_merges (bucketed : Bucketed n buckets) {m : Merge} :
    m ∈ Merge.ofBuckets n buckets ↔
      m.left ∈ buckets.flatten ∧ m.right ∈ buckets.flatten ∧ m.left.ones n < m.right.ones n ∧
        m.left.combine m.right n = some m.result := by
  rw [Merge.mem_ofBuckets]
  constructor
  · rintro ⟨i, low, high, merged⟩
    obtain ⟨left, first⟩ := bucketed.mem_getD.mp low
    obtain ⟨right, second⟩ := bucketed.mem_getD.mp high
    exact ⟨left, right, by omega, merged⟩
  · rintro ⟨left, right, less, merged⟩
    have near : m.left.differingBit m.right n ≠ none := by
      rw [Ne, ← Implicant.combine_eq_none_iff, merged]
      exact Option.some_ne_none _
    have step := bucketed.adjacent left right near
    refine ⟨m.left.ones n, bucketed.mem_getD.mpr ⟨left, rfl⟩, ?_, merged⟩
    exact bucketed.mem_getD.mpr ⟨right, by omega⟩

/-- What is left over combines with nothing present. -/
theorem mem_unused (bucketed : Bucketed n buckets) {a : Implicant} :
    a ∈ Round.unusedFrom n [] buckets ↔
      a ∈ buckets.flatten ∧ ∀ b ∈ buckets.flatten, a.differingBit b n = none := by
  have start : ([] : ByMask) = ByMask.ofList [] := rfl
  rw [start, Round.mem_unusedFrom]
  constructor
  · rintro ⟨i, member, low, high⟩
    obtain ⟨present, own⟩ := bucketed.mem_getD.mp member
    refine ⟨present, fun b other => ?_⟩
    by_contra near
    rcases bucketed.adjacent present other near with above | below
    · exact near (high b (bucketed.mem_getD.mpr ⟨other, by omega⟩))
    · cases i with
      | zero => omega
      | succ i => exact near (low b (bucketed.mem_getD.mpr ⟨other, by omega⟩))
  · rintro ⟨present, alone⟩
    refine ⟨a.ones n, bucketed.mem_getD.mpr ⟨present, rfl⟩, fun b member => ?_, fun b member => ?_⟩
    · cases rank : a.ones n with
      | zero => rw [rank] at member; cases member
      | succ i =>
          rw [rank] at member
          exact alone b (mem_flatten_iff_getD.mpr ⟨i, member⟩)
    · exact alone b (mem_flatten_iff_getD.mpr ⟨_, member⟩)

/-- A round leads from buckets of cubes to buckets of cubes. Every implicant is there once
then, and what is there was merged or was not used. -/
theorem round (bucketed : Bucketed n buckets) :
    Bucketed n (Round.ofBuckets n buckets).buckets ∧
      (Round.ofBuckets n buckets).implicants.Nodup ∧
      ∀ a, a ∈ (Round.ofBuckets n buckets).implicants ↔
        a ∈ (Merge.ofBuckets n buckets).map (·.result) ++ Round.unusedFrom n [] buckets := by
  refine bucketed_distinct fun a member => ?_
  rcases List.mem_append.mp member with new | old
  · obtain ⟨m, merged, rfl⟩ := List.mem_map.mp new
    obtain ⟨left, right, -, combined⟩ := bucketed.mem_merges.mp merged
    obtain ⟨c, reprLeft, overLeft⟩ := bucketed.cubes _ left
    obtain ⟨d, reprRight, overRight⟩ := bucketed.cubes _ right
    obtain ⟨p, used, -, rfl, reached⟩ :=
      (Implicant.combine_eq_some_iff reprLeft reprRight overLeft overRight).mp combined
    have below : p < 64 := lt_of_lt_of_le used n.size_le
    exact ⟨_, reached, Cube.Over.widen below overLeft overRight⟩
  · exact bucketed.cubes a (bucketed.mem_unused.mp old).1

end Bucketed

end TwoLevel
