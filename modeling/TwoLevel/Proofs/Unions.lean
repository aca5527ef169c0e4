/-
# TwoLevel.Proofs.Unions — when two implicants make up one

Combination compares masks and bases, but what it decides is a fact about points: two
implicants combine exactly if they have no minterm in common and their minterms together are a
subcube (`Implicant.combine_exact`).

That what combines is such a pair is what a step up does: a cube and its mirror image are the
two parts of the wider cube (`Cube.parts_widen`). For the converse let a cube have two parts
(`Cube.Parts`). From the first part there is a step up that stays in the whole, and the mirror
image in this step has no point in common with the first part, so that it lies in the second
one (`Cube.Parts.exists_mirror_le`). The same from the second part says that neither part is
smaller than the other, and then each is the mirror image of the other
(`Cube.Parts.exists_eq_mirror`).
-/
import TwoLevel.Proofs.Representation

namespace TwoLevel

set_option autoImplicit false

namespace Cube

variable {c d e : Cube} {p : Nat} {x : Word}

/-- A cube and its mirror image have no point in common. -/
theorem not_mem_mirror (below : p < 64) (held : c.mask.bit p = false) (member : x ∈ c) :
    x ∉ c.mirror p := by
  intro mirrored
  have own := mem_iff_bit.mp member p held
  have other := mem_iff_bit.mp ((mem_mirror below).mp mirrored) p held
  simp [Word.bit_single below, own] at other

/-- A cube and its mirror image widen to the same cube. -/
theorem widen_mirror (below : p < 64) : (c.mirror p).widen p = c.widen p := by
  have same (x : Word) : x ∈ (c.mirror p).widen p ↔ x ∈ c.widen p := by
    rw [mem_widen below, mem_widen below, mirror_mirror, or_comm]
  exact le_antisymm (fun x => (same x).mp) fun x => (same x).mpr

/-- The words with given bits outside a mask are a cube, if there are any. -/
theorem exists_of_described {mask base : Word} (described : x &&& ~~~mask = base) :
    ∃ e : Cube, ∀ y, y ∈ e ↔ y &&& ~~~mask = base := by
  refine ⟨⟨mask, base, Word.eq_of_bit_eq fun i => ?_⟩, fun y => Iff.rfl⟩
  rw [← described]
  simp

/-! ## Cubes in two parts -/

/-- The cube is the union of two cubes without a common point. -/
structure Parts (e c d : Cube) : Prop where
  disjoint : ∀ x ∈ c, x ∉ d
  union : ∀ x, x ∈ e ↔ x ∈ c ∨ x ∈ d

theorem parts_widen (below : p < 64) (held : c.mask.bit p = false) :
    (c.widen p).Parts c (c.mirror p) where
  disjoint _ member := not_mem_mirror below held member
  union _ := mem_widen below

namespace Parts

theorem symm (parts : e.Parts c d) : e.Parts d c where
  disjoint x member own := parts.disjoint x own member
  union x := (parts.union x).trans or_comm

/-- The mirror image of a part in some position lies in the other part. -/
theorem exists_mirror_le (parts : e.Parts c d) :
    ∃ p, p < 64 ∧ c.mask.bit p = false ∧ c.mirror p ≤ d := by
  have inside : c ≤ e := fun x member => (parts.union x).mpr (.inl member)
  have differ : c ≠ e := by
    rintro rfl
    have shared := (parts.union d.base).mpr (.inr d.base_mem)
    exact parts.disjoint d.base shared d.base_mem
  obtain ⟨p, below, held, step⟩ := exists_widen_le inside differ
  refine ⟨p, below, held, fun x mirrored => ?_⟩
  have whole := (parts.union x).mp (step x (mirror_le_widen below x mirrored))
  exact whole.resolve_left fun own => not_mem_mirror below held own mirrored

theorem dimension_le (parts : e.Parts c d) : c.dimension ≤ d.dimension := by
  obtain ⟨p, -, -, inside⟩ := parts.exists_mirror_le
  have mirrored : (c.mirror p).dimension = c.dimension := rfl
  rw [← mirrored]
  exact Cube.dimension_le inside

/-- The parts of a cube are mirror images of each other. -/
theorem exists_eq_mirror (parts : e.Parts c d) :
    ∃ p, p < 64 ∧ c.mask.bit p = false ∧ d = c.mirror p := by
  obtain ⟨p, below, held, inside⟩ := parts.exists_mirror_le
  exact ⟨p, below, held, (eq_of_dimension_le inside parts.symm.dimension_le).symm⟩

end Parts

end Cube

/-! ## Combination -/

namespace Implicant

section Represents

variable {a b e : Implicant} {c d : Cube} {n : Arity}

/-- What combines has the parts of a cube. -/
theorem parts_of_combine (left : a.Represents c) (right : b.Represents d) (overLeft : c.Over n)
    (overRight : d.Over n) (merged : a.combine b n = some e) :
    ∃ f, e.Represents f ∧ f.Parts c d := by
  obtain ⟨p, used, held, rfl, reached⟩ :=
    (combine_eq_some_iff left right overLeft overRight).mp merged
  exact ⟨_, reached, Cube.parts_widen (lt_of_lt_of_le used n.size_le) held⟩

/-- The parts of a cube combine. -/
theorem exists_combine_of_parts {f : Cube} (left : a.Represents c) (right : b.Represents d)
    (overLeft : c.Over n) (overRight : d.Over n) (parts : f.Parts c d) :
    ∃ e, a.combine b n = some e := by
  obtain ⟨p, below, held, rfl⟩ := parts.exists_eq_mirror
  have free : (c.widen p).mask.bit p = true := by simp [Cube.widen, Word.bit_single below]
  have isOver := Cube.Over.widen below overLeft overRight
  have used : p < n.size := Arity.admits_iff_bit.mp isOver.mask p free
  obtain ⟨e, merged, -⟩ := exists_combine left right overLeft overRight used held
  exact ⟨e, merged⟩

/-- The order of the two implicants does not matter. -/
theorem combine_symm (left : a.Represents c) (right : b.Represents d) (overLeft : c.Over n)
    (overRight : d.Over n) (merged : a.combine b n = some e) : b.combine a n = some e := by
  obtain ⟨p, used, held, rfl, reached⟩ :=
    (combine_eq_some_iff left right overLeft overRight).mp merged
  rw [combine_eq_some_iff right left overRight overLeft]
  refine ⟨p, used, held, Cube.mirror_mirror.symm, ?_⟩
  rwa [Cube.widen_mirror (lt_of_lt_of_le used n.size_le)]

/-- The position in which two implicants differ is the one that their combination frees. -/
theorem differingBit_of_combine (left : a.Represents c) (right : b.Represents d)
    (overLeft : c.Over n) (overRight : d.Over n) (merged : a.combine b n = some e) :
    ∃ p, p < 64 ∧ e.mask &&& ~~~a.mask = Word.single p ∧
      a.differingBit b n = some (Word.single p) := by
  obtain ⟨p, used, held, mirrored, reached⟩ :=
    (combine_eq_some_iff left right overLeft overRight).mp merged
  have below : p < 64 := lt_of_lt_of_le used n.size_le
  refine ⟨p, below, Word.eq_of_bit_eq fun i => ?_, ?_⟩
  · rw [reached.mask, left.mask]
    by_cases same : p = i
    · subst same; simp [Cube.widen, Word.bit_single below, held]
    · simp [Cube.widen, Word.bit_single below, same]
  · exact (differingBit_eq_some_iff left right overLeft overRight).mpr
      ⟨p, used, held, mirrored, rfl⟩

/-- A combination has one literal less. -/
theorem literals_of_combine (left : a.Represents c) (right : b.Represents d) (overLeft : c.Over n)
    (overRight : d.Over n) (merged : a.combine b n = some e) :
    e.literals n + 1 = a.literals n := by
  obtain ⟨p, used, held, rfl, reached⟩ :=
    (combine_eq_some_iff left right overLeft overRight).mp merged
  have below : p < 64 := lt_of_lt_of_le used n.size_le
  have wide := reached.literals_add (Cube.Over.widen below overLeft overRight)
  have narrow := left.literals_add overLeft
  rw [Cube.dimension_widen below held] at wide
  omega

end Represents

/-- **Combination is the union of cubes.** Two implicants combine exactly if they have no
minterm in common and their minterms together are all the words with some bits outside some
mask. What they combine into has these minterms in ascending order and one literal less, the
position in which they differ is the only one that it frees, and the order of the two does not
matter. -/
theorem combine_exact (n : Arity) (a b : Implicant) (left : a.BuiltOver n)
    (right : b.BuiltOver n) :
    ((∃ e, a.combine b n = some e) ↔
      (∀ x ∈ a.minterms, x ∉ b.minterms) ∧
        ∃ mask base : Word, ∀ x, x ∈ a.minterms ∨ x ∈ b.minterms ↔ x &&& ~~~mask = base) ∧
    (∀ e, a.combine b n = some e →
      (e.minterms.Pairwise (· < ·) ∧ ∀ x, x ∈ e.minterms ↔ x ∈ a.minterms ∨ x ∈ b.minterms) ∧
      e.literals n + 1 = a.literals n ∧
      ((e.mask &&& ~~~a.mask).popCount = 1 ∧
        a.differingBit b n = some (e.mask &&& ~~~a.mask)) ∧
      b.combine a n = some e) ∧
    (a.combine b n = none → b.combine a n = none) := by
  obtain ⟨c, reprLeft, overLeft⟩ := left.represents
  obtain ⟨d, reprRight, overRight⟩ := right.represents
  refine ⟨⟨?_, ?_⟩, fun e merged => ⟨?_, ?_, ?_, ?_⟩, fun none => ?_⟩
  · rintro ⟨e, merged⟩
    obtain ⟨f, -, parts⟩ := parts_of_combine reprLeft reprRight overLeft overRight merged
    simp only [reprLeft.mem, reprRight.mem]
    exact ⟨parts.disjoint, f.mask, f.base, fun x => (parts.union x).symm⟩
  · rintro ⟨disjoint, mask, base, described⟩
    simp only [reprLeft.mem, reprRight.mem] at disjoint described
    obtain ⟨f, points⟩ := Cube.exists_of_described ((described _).mp (.inl c.base_mem))
    have parts : f.Parts c d := ⟨disjoint, fun x => (points x).trans (described x).symm⟩
    exact exists_combine_of_parts reprLeft reprRight overLeft overRight parts
  · obtain ⟨f, reached, parts⟩ := parts_of_combine reprLeft reprRight overLeft overRight merged
    refine ⟨reached.ascending, fun x => ?_⟩
    rw [reached.mem, reprLeft.mem, reprRight.mem]
    exact parts.union x
  · exact literals_of_combine reprLeft reprRight overLeft overRight merged
  · obtain ⟨p, below, freed, differ⟩ :=
      differingBit_of_combine reprLeft reprRight overLeft overRight merged
    rw [freed]
    exact ⟨Word.popCount_eq_one_iff.mpr ⟨p, below, rfl⟩, differ⟩
  · exact combine_symm reprLeft reprRight overLeft overRight merged
  · rw [Option.eq_none_iff_forall_ne_some] at none ⊢
    exact fun e merged => none e (combine_symm reprRight reprLeft overRight overLeft merged)

/-- Two opposite sides of a square make it up, two opposite corners are no subcube. -/
theorem combine_exact_square :
    ∃ a b e : Implicant, a.BuiltOver ⟨3, by decide⟩ ∧ b.BuiltOver ⟨3, by decide⟩ ∧
      a.minterms = [1, 3] ∧ b.minterms = [5, 7] ∧ a.combine b ⟨3, by decide⟩ = some e ∧
      (∀ x, x ∈ e.minterms ↔ x ∈ a.minterms ∨ x ∈ b.minterms) ∧
      e.literals ⟨3, by decide⟩ = 1 ∧ b.combine a ⟨3, by decide⟩ = some e ∧
      ¬∃ mask base : Word, ∀ x, x ∈ [(1 : Word)] ∨ x ∈ [(7 : Word)] ↔ x &&& ~~~mask = base := by
  let n : Arity := ⟨3, by decide⟩
  have single (x : Word) (below : x.toNat < 2 ^ 3) : (ofMinterm x).BuiltOver n := .ofMinterm below
  have left : BuiltOver n ⟨[1, 3], 2, 1⟩ :=
    .combine (single 1 (by decide)) (single 3 (by decide)) (by decide)
  have right : BuiltOver n ⟨[5, 7], 2, 5⟩ :=
    .combine (single 5 (by decide)) (single 7 (by decide)) (by decide)
  obtain ⟨-, merged, -⟩ := combine_exact n _ _ left right
  obtain ⟨⟨-, union⟩, fewer, -, back⟩ := merged ⟨[1, 3, 5, 7], 6, 1⟩ (by decide)
  obtain ⟨apart, -, -⟩ :=
    combine_exact n _ _ (single 1 (by decide)) (single 7 (by decide))
  have two : literals (⟨[1, 3], 2, 1⟩ : Implicant) n = 2 := by decide
  have corners : (ofMinterm 1).combine (ofMinterm 7) n = none := by decide
  refine ⟨_, _, _, left, right, rfl, rfl, by decide, union, ?_, back, fun described => ?_⟩
  · exact Nat.succ.inj (fewer.trans two)
  · obtain ⟨e, impossible⟩ := apart.mpr ⟨by simp [ofMinterm], described⟩
    simp [corners] at impossible

end Implicant

end TwoLevel
