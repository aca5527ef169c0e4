/-
# TwoLevel.Proofs.Sifting — the pass by size keeps what survives

`absorbBySize` compares a set with the survivors so far, and not with the whole list. That
nothing is missed by this has two reasons. The positions come ordered by size and, for sets of
one size, by themselves (`pairwise_positionsBySize`), and a position survives exactly if no
earlier one in this order holds a subset (`survives_iff`): a strict subset is smaller, and an
equal set of the same size. And what was visited and is no survivor itself holds a superset of
one (`Sifted.absorbed`), so that a subset at any visited position means a subset at a survivor.

`Sifted` is what holds after each visit (`Sifted.visit`), so after all of them the flags are up at
the positions that survive (`keep_eq`). These are the ones that the tree of all members leaves,
`absorb_eq_absorbBySize`, and the law holds of both (`absorbBySize_exact`).
-/
import TwoLevel.Proofs.Absorbing
import TwoLevel.Proofs.Registers

namespace TwoLevel

set_option autoImplicit false

namespace Covering

variable {sets : List IndexSet} {i j : Nat}

theorem setAt_eq (bound : i < sets.length) : setAt sets i = sets[i] :=
  List.getD_eq_getElem _ _ bound

theorem setAt_mem (bound : i < sets.length) : setAt sets i ∈ sets :=
  setAt_eq bound ▸ List.getElem_mem bound

/-! ## The order of the visits -/

/-- The pass comes to position `i` before it comes to `j`. -/
def Precedes (sets : List IndexSet) (i j : Nat) : Prop :=
  (setAt sets i).size < (setAt sets j).size ∨ (setAt sets i).size = (setAt sets j).size ∧ i < j

theorem Precedes.asymm (first : Precedes sets i j) : ¬Precedes sets j i := by
  unfold Precedes at *
  omega

theorem mem_positionsBySize : i ∈ positionsBySize sets ↔ i < sets.length := by
  rw [positionsBySize, List.mem_mergeSort, List.mem_range]

/-- A position in a list of positions has itself as its number. -/
theorem fst_eq_snd_of_mem {length : Nat} {x : Nat × Nat}
    (member : x ∈ (List.range length).zipIdx) : x.1 = x.2 := by
  obtain ⟨bound, value⟩ := List.getElem?_eq_some_iff.mp (List.mem_zipIdx_iff_getElem?.mp member)
  rw [← value, List.getElem_range]

/-- The order in which a stable sort leaves numbered positions. -/
theorem zipIdxLE_iff {key : Nat → Nat} {x y : Nat × Nat} :
    List.zipIdxLE (fun i j => decide (key i ≤ key j)) x y = true ↔
      key x.1 < key y.1 ∨ key x.1 = key y.1 ∧ x.2 ≤ y.2 := by
  unfold List.zipIdxLE
  by_cases below : key x.1 ≤ key y.1
  · by_cases above : key y.1 ≤ key x.1
    · simp only [below, above, decide_true, if_true, decide_eq_true_iff]
      omega
    · simp only [below, above, decide_true, if_true, decide_false, Bool.false_eq_true, if_false,
        true_iff]
      omega
  · simp only [below, decide_false, Bool.false_eq_true, if_false, false_iff]
    omega

/-- Sorting positions is stable: those of one key stay in order. -/
theorem pairwise_mergeSort_range (key : Nat → Nat) (length : Nat) :
    ((List.range length).mergeSort fun i j => decide (key i ≤ key j)).Pairwise fun i j =>
      key i < key j ∨ key i = key j ∧ i < j := by
  let le (i j : Nat) : Bool := decide (key i ≤ key j)
  have trans : ∀ i j k, le i j = true → le j k = true → le i k = true := by
    simp only [le, decide_eq_true_iff]
    omega
  have total : ∀ i j, (le i j || le j i) = true := by
    simp only [le, Bool.or_eq_true, decide_eq_true_iff]
    omega
  let entries := (List.range length).zipIdx.mergeSort (List.zipIdxLE le)
  have sorted : entries.Pairwise fun x y => List.zipIdxLE le x y = true :=
    List.pairwise_mergeSort (List.zipIdxLE_trans trans) (List.zipIdxLE_total total) _
  have own : ∀ x ∈ entries, x.1 = x.2 := fun x member =>
    fst_eq_snd_of_mem (List.mem_mergeSort.mp member)
  have once : (entries.map (·.1)).Nodup := by
    have positions : entries.map (·.1) = (List.range length).mergeSort le := List.mergeSort_zipIdx
    rw [positions]
    exact (List.mergeSort_perm _ _).nodup_iff.mpr List.nodup_range
  rw [← List.mergeSort_zipIdx, List.pairwise_map]
  refine (sorted.and (List.pairwise_map.mp once)).imp_of_mem ?_
  rintro x y left right ⟨before, apart⟩
  have first := own x left
  have second := own y right
  rcases zipIdxLE_iff.mp before with smaller | ⟨same, earlier⟩
  · exact .inl smaller
  · exact .inr ⟨same, by omega⟩

/-- The pass comes to positions of smaller sets first, and to those of one size in order. -/
theorem pairwise_positionsBySize (sets : List IndexSet) :
    (positionsBySize sets).Pairwise (Precedes sets) :=
  pairwise_mergeSort_range (fun i => (setAt sets i).size) sets.length

/-- Where the pass comes to `i`, it has come to the positions that precede `i`. -/
theorem mem_visited {visited later : List Nat}
    (order : positionsBySize sets = visited ++ i :: later) :
    j ∈ visited ↔ j < sets.length ∧ Precedes sets j i := by
  have sorted := pairwise_positionsBySize sets
  rw [order, List.pairwise_append, List.pairwise_cons] at sorted
  obtain ⟨-, ⟨after, -⟩, before⟩ := sorted
  rw [← mem_positionsBySize, order, List.mem_append, List.mem_cons]
  constructor
  · intro member
    exact ⟨.inl member, before j member i List.mem_cons_self⟩
  · rintro ⟨member | rfl | member, first⟩
    · exact member
    · exact absurd first first.asymm
    · exact absurd first (after j member).asymm

/-! ## What survives -/

/-- A position survives exactly if no position before it holds a subset. -/
theorem survives_iff :
    Survives sets (setAt sets i, i) ↔
      ∀ j < sets.length, Precedes sets j i → ¬(setAt sets j).members ⊆ (setAt sets i).members := by
  constructor
  · rintro ⟨least, first⟩ j below earlier inside
    rcases inside.ssubset_or_eq with strict | same
    · exact least _ (setAt_mem below) strict
    · have size : (setAt sets j).size = (setAt sets i).size := by
        rw [← IndexSet.card_members, ← IndexSet.card_members, same]
      have before : j < i := by
        unfold Precedes at earlier
        omega
      refine first _ (List.mem_take_iff_getElem.mpr ⟨j, ?_, rfl⟩) (setAt_eq below ▸ same)
      exact Nat.lt_min.mpr ⟨before, below⟩
  · intro none
    constructor
    · intro t member strict
      obtain ⟨j, below, rfl⟩ := List.getElem_of_mem member
      rw [← setAt_eq below] at strict
      have fewer := Finset.card_lt_card strict
      rw [IndexSet.card_members, IndexSet.card_members] at fewer
      exact none j below (.inl fewer) strict.subset
    · intro t member same
      obtain ⟨j, small, rfl⟩ := List.mem_take_iff_getElem.mp member
      obtain ⟨before, below⟩ := Nat.lt_min.mp small
      rw [← setAt_eq below] at same
      have size : (setAt sets j).size = (setAt sets i).size := by
        rw [← IndexSet.card_members, ← IndexSet.card_members, same]
      exact none j below (.inr ⟨size, before⟩) same.subset

/-! ## The pass -/

/-- What a pass has decided once it has come to the positions in `visited`. -/
structure Sifted (sets : List IndexSet) (visited : List Nat) (pass : Sifting) : Prop where
  length : pass.keep.length = sets.length
  /-- The flags are up at the survivors. -/
  flags : ∀ i, pass.keep[i]? = some true ↔ i ∈ pass.survivors
  /-- The survivors are the visited positions that survive. -/
  survivors : ∀ i, i ∈ pass.survivors ↔ i ∈ visited ∧ Survives sets (setAt sets i, i)
  /-- Every visited position holds a superset of a survivor. -/
  absorbed : ∀ i ∈ visited, ∃ j ∈ pass.survivors, (setAt sets j).members ⊆ (setAt sets i).members

namespace Sifted

variable {visited later : List Nat} {pass : Sifting}

theorem start (sets : List IndexSet) : Sifted sets [] (.start sets.length) where
  length := List.length_replicate
  flags i := by simp [Sifting.start, List.getElem?_replicate]
  survivors i := by simp [Sifting.start]
  absorbed i member := by cases member

/-- A position that holds a superset of a survivor is passed over. -/
theorem passOver (known : Sifted sets visited pass)
    (order : positionsBySize sets = visited ++ i :: later) (kept : j ∈ pass.survivors)
    (inside : (setAt sets j).members ⊆ (setAt sets i).members) :
    Sifted sets (visited ++ [i]) pass := by
  have absorbed : ¬Survives sets (setAt sets i, i) := by
    intro survives
    obtain ⟨bound, first⟩ := (mem_visited order).mp ((known.survivors j).mp kept).1
    exact survives_iff.mp survives j bound first inside
  refine ⟨known.length, known.flags, fun k => ?_, fun k member => ?_⟩
  · rw [known.survivors, List.mem_append, List.mem_singleton]
    constructor
    · rintro ⟨member, survives⟩
      exact ⟨.inl member, survives⟩
    · rintro ⟨member | rfl, survives⟩
      · exact ⟨member, survives⟩
      · exact absurd survives absorbed
  · rcases List.mem_append.mp member with old | new
    · exact known.absorbed k old
    · obtain rfl := List.mem_singleton.mp new
      exact ⟨j, kept, inside⟩

/-- A position that holds no superset of a survivor is a survivor. -/
theorem keep (known : Sifted sets visited pass)
    (order : positionsBySize sets = visited ++ i :: later)
    (none : ∀ j ∈ pass.survivors, ¬(setAt sets j).members ⊆ (setAt sets i).members) :
    Sifted sets (visited ++ [i]) ⟨pass.keep.set i true, pass.survivors ++ [i]⟩ := by
  have bound : i < sets.length := by
    rw [← mem_positionsBySize, order]
    simp
  have survives : Survives sets (setAt sets i, i) := by
    refine survives_iff.mpr fun j below first inside => ?_
    obtain ⟨k, kept, within⟩ := known.absorbed j ((mem_visited order).mpr ⟨below, first⟩)
    exact none k kept (within.trans inside)
  refine ⟨?_, fun k => ?_, fun k => ?_, fun k member => ?_⟩
  · rw [List.length_set, known.length]
  · rw [List.mem_append, List.mem_singleton, ← known.flags, List.getElem?_set, known.length]
    by_cases same : i = k
    · subst same
      simp [bound]
    · simp [same, Ne.symm same]
  · rw [List.mem_append, List.mem_append, List.mem_singleton, known.survivors]
    constructor
    · rintro (⟨member, own⟩ | rfl)
      · exact ⟨.inl member, own⟩
      · exact ⟨.inr rfl, survives⟩
    · rintro ⟨member | rfl, own⟩
      · exact .inl ⟨member, own⟩
      · exact .inr rfl
  · rcases List.mem_append.mp member with old | new
    · obtain ⟨j, kept, inside⟩ := known.absorbed k old
      exact ⟨j, List.mem_append_left _ kept, inside⟩
    · obtain rfl := List.mem_singleton.mp new
      exact ⟨k, List.mem_append_right _ (List.mem_singleton.mpr rfl), subset_rfl⟩

theorem visit (known : Sifted sets visited pass)
    (order : positionsBySize sets = visited ++ i :: later) :
    Sifted sets (visited ++ [i]) (pass.visit sets i) := by
  unfold Sifting.visit
  split
  · rename_i found
    simp only [List.any_eq_true, IndexSet.isSubset_iff] at found
    obtain ⟨j, kept, inside⟩ := found
    exact known.passOver order kept inside
  · rename_i missing
    simp only [List.any_eq_true, IndexSet.isSubset_iff] at missing
    apply known.keep order
    intro j kept inside
    exact missing ⟨j, kept, inside⟩

theorem run (known : Sifted sets visited pass) (order : positionsBySize sets = visited ++ later) :
    Sifted sets (positionsBySize sets) (later.foldl (Sifting.visit sets) pass) := by
  induction later generalizing visited pass with
  | nil =>
      rw [List.append_nil] at order
      exact order ▸ known
  | cons i rest ih =>
      have split : positionsBySize sets = (visited ++ [i]) ++ rest := by
        rw [order, List.append_assoc, List.singleton_append]
      exact ih (known.visit order) split

/-- After the pass the flags are up at the positions that survive. -/
theorem keep_eq (done : Sifted sets (positionsBySize sets) pass) :
    pass.keep = sets.zipIdx.map fun entry => decide (Survives sets entry) := by
  refine List.ext_getElem (by simp [done.length]) fun i left right => ?_
  have bound : i < sets.length := done.length ▸ left
  rw [Bool.eq_iff_iff, ← Option.some_inj, ← List.getElem?_eq_getElem, done.flags, done.survivors,
    mem_positionsBySize, and_iff_right bound, setAt_eq bound]
  simp

end Sifted

/-- The pass by size keeps the sets at the positions that survive. -/
theorem absorbBySize_eq_survivors (sets : List IndexSet) :
    absorbBySize sets =
      (sets.zipIdx.filter fun entry => decide (Survives sets entry)).map (·.1) := by
  have done := (Sifted.start sets).run (List.nil_append _).symm
  have pairs : sets.zip (sets.zipIdx.map fun entry => decide (Survives sets entry)) =
      sets.zipIdx.map fun entry => (entry.1, decide (Survives sets entry)) := by
    rw [← List.zip_map', List.zipIdx_map_fst]
  rw [absorbBySize, done.keep_eq, pairs, List.filter_map, List.map_map]
  rfl

/-- The tree of all members leaves what the pass by size keeps. -/
theorem absorb_eq_absorbBySize (sets : List IndexSet) : absorb sets = absorbBySize sets :=
  (absorb_eq_survivors sets).trans (absorbBySize_eq_survivors sets).symm

/-- **The absorption law.** The pass by size keeps of a list, in their order, the sets at those
positions where no set of the list is a strict subset and no earlier one is equal. So no two of
them are comparable, every set of the list contains one of them, absorbing again changes nothing,
and another order of the list keeps the same sets in another order. The covering, which looks
for subsets in a tree, is left with the same list. -/
theorem absorbBySize_exact (sets : List IndexSet) :
    absorbBySize sets =
      (sets.zipIdx.filter fun entry => decide (Survives sets entry)).map (·.1) ∧
    (absorbBySize sets).Pairwise Incomparable ∧
    (∀ s ∈ sets, ∃ t ∈ absorbBySize sets, t.members ⊆ s.members) ∧
    absorbBySize (absorbBySize sets) = absorbBySize sets ∧
    (∀ others, sets.Perm others →
      ((absorbBySize sets).map (·.members)).Perm ((absorbBySize others).map (·.members))) ∧
    absorb sets = absorbBySize sets := by
  have tree := absorb_eq_absorbBySize
  refine ⟨absorbBySize_eq_survivors sets, ?_, fun s member => ?_, ?_, fun others shuffled => ?_,
    tree sets⟩
  · rw [← tree]
    exact absorb_pairwise sets
  · rw [← tree]
    exact exists_mem_absorb member
  · rw [← tree, ← tree]
    exact absorb_eq_self (absorb_pairwise sets)
  · rw [← tree, ← tree]
    exact absorb_perm shuffled

/-- Four sets with words of different lengths: `{0, 1}` contains the repeated `{0}`, of which the
first is kept, in whatever order they come. -/
theorem absorbBySize_exact_repeated :
    let sets : List IndexSet := [IndexSet.ofList [0, 1], IndexSet.ofList [0],
      (IndexSet.withCapacity 200).insert 0, IndexSet.ofList [1, 130]]
    (∃ t ∈ absorbBySize sets, t.members ⊆ (IndexSet.ofList [0, 1]).members) ∧
      (absorbBySize sets).map (·.members) = [{0}, {1, 130}] ∧
      ((absorbBySize sets).map (·.members)).Perm
        ((absorbBySize sets.reverse).map (·.members)) := by
  intro sets
  obtain ⟨-, -, contains, -, reorder, tree⟩ := absorbBySize_exact sets
  refine ⟨contains _ List.mem_cons_self, ?_, reorder _ (List.reverse_perm sets).symm⟩
  rw [← tree]
  decide

end Covering

end TwoLevel
