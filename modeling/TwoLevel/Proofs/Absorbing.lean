/-
# TwoLevel.Proofs.Absorbing — what absorption leaves

`firstOccurrences` are the sets of a list that no earlier one equals. `absorb` keeps of
these the ones that contain no other set of the list (`absorb_eq`): the tree of the
members holds all sets gathered so far, and a set of it with fewer members within `s`
is a strict subset of `s` (`absorbs_iff`).

So what is left is minimal in the list, and every minimal set of the list is left
(`mem_absorb_members`), but none twice (`absorb_nodup`). Which positions are left is said by
`Survives` (`absorb_eq_survivors`). No two of the sets left are comparable (`absorb_pairwise`),
every set of the list contains one of them (`exists_mem_absorb`), and the order of the list
decides their order only (`absorb_perm`).
-/
import Mathlib.Data.List.Induction
import Mathlib.Order.Minimal
import TwoLevel.Covering.Absorption
import TwoLevel.Proofs.Firsts
import TwoLevel.Proofs.Members

namespace TwoLevel

set_option autoImplicit false

namespace Covering

/-! ## First occurrences -/

/-- Whether no set of the list before this position equals the one there. -/
def isFirst (sets : List IndexSet) (entry : IndexSet × Nat) : Bool :=
  decide (∀ t ∈ sets.take entry.2, t.members ≠ entry.1.members)

/-- The sets that no earlier one of the list equals, in order. -/
def firstOccurrences (sets : List IndexSet) : List IndexSet :=
  (sets.zipIdx.filter (isFirst sets)).map (·.1)

theorem firstOccurrences_concat (sets : List IndexSet) (s : IndexSet) :
    firstOccurrences (sets ++ [s]) =
      firstOccurrences sets ++ if s.members ∈ sets.map (·.members) then [] else [s] :=
  firstsBy_concat IndexSet.members sets s

theorem firstOccurrences_sublist (sets : List IndexSet) :
    (firstOccurrences sets).Sublist sets :=
  firstsBy_sublist IndexSet.members sets

theorem firstOccurrences_members (sets : List IndexSet) (C : Finset Nat) :
    C ∈ (firstOccurrences sets).map (·.members) ↔ C ∈ sets.map (·.members) :=
  mem_map_firstsBy IndexSet.members sets C

theorem firstOccurrences_nodup (sets : List IndexSet) :
    ((firstOccurrences sets).map (·.members)).Nodup :=
  nodup_map_firstsBy IndexSet.members sets

/-! ## Absorption -/

theorem gathered_concat (sets : List IndexSet) (s : IndexSet) :
    (sets ++ [s]).foldl Gathered.add Gathered.nothing =
      (sets.foldl Gathered.add Gathered.nothing).add s := by
  rw [List.foldl_append, List.foldl_cons, List.foldl_nil]

/-- The tree holds the lists of all sets gathered. -/
theorem mem_gathered_paths (sets : List IndexSet) (path : List Nat) :
    path ∈ (sets.foldl Gathered.add Gathered.nothing).paths.lists ↔
      path ∈ sets.map (·.toList) := by
  induction sets using List.reverseRecOn with
  | nil => rfl
  | append_singleton earlier last ih =>
      rw [gathered_concat, List.map_append, List.mem_append, ← ih, List.map_singleton,
        List.mem_singleton, Gathered.add]
      split
      · rename_i known
        have old := Paths.contains_iff.mp known
        constructor
        · exact .inl
        · rintro (member | rfl)
          · exact member
          · exact old
      · rw [Paths.mem_insert, or_comm]

theorem gathered_fresh (sets : List IndexSet) :
    (sets.foldl Gathered.add Gathered.nothing).fresh.reverse = firstOccurrences sets := by
  induction sets using List.reverseRecOn with
  | nil => rfl
  | append_singleton earlier last ih =>
      have known : (earlier.foldl Gathered.add Gathered.nothing).paths.contains last.toList = true ↔
          last.members ∈ earlier.map (·.members) := by
        rw [Paths.contains_iff, mem_gathered_paths, List.mem_map, List.mem_map]
        simp only [IndexSet.toList_eq_iff]
      rw [gathered_concat, firstOccurrences_concat, ← ih, Gathered.add]
      split
      · rename_i old
        rw [if_pos (known.mp old), List.append_nil]
      · rename_i new
        rw [if_neg fun old => new (known.mpr old), List.reverse_cons]

/-- A gathered list with fewer members within `s` is a strict subset of `s`. -/
theorem absorbs_iff (sets : List IndexSet) (s : IndexSet) :
    (sets.foldl Gathered.add Gathered.nothing).absorbs s = true ↔
      ∃ t ∈ sets, t.members ⊂ s.members := by
  have inside (t : IndexSet) :
      t.toList.length < s.size ∧ (∀ i ∈ t.toList, s.contains i = true) ↔
        t.members ⊂ s.members := by
    have within : (∀ i ∈ t.toList, s.contains i = true) ↔ t.members ⊆ s.members := by
      simp only [Finset.subset_iff, IndexSet.mem_members, IndexSet.mem_toList]
    rw [within, IndexSet.length_toList, ← IndexSet.card_members, ← IndexSet.card_members]
    constructor
    · rintro ⟨fewer, subset⟩
      refine Finset.ssubset_iff_subset_ne.mpr ⟨subset, fun same => ?_⟩
      rw [same] at fewer
      exact Nat.lt_irrefl _ fewer
    · intro strict
      exact ⟨Finset.card_lt_card strict, strict.subset⟩
  rw [Gathered.absorbs, Paths.anyWithin_iff]
  constructor
  · rintro ⟨path, known, found⟩
    obtain ⟨t, member, rfl⟩ := List.mem_map.mp ((mem_gathered_paths sets path).mp known)
    exact ⟨t, member, (inside t).mp found⟩
  · rintro ⟨t, member, strict⟩
    refine ⟨t.toList, (mem_gathered_paths sets _).mpr (List.mem_map_of_mem member), ?_⟩
    exact (inside t).mpr strict

/-- Absorption keeps the first occurrences that contain no other set of the list. -/
theorem absorb_eq (sets : List IndexSet) :
    absorb sets =
      (firstOccurrences sets).filter fun s => decide (∀ t ∈ sets, ¬t.members ⊂ s.members) := by
  rw [absorb, ← List.filter_reverse, gathered_fresh]
  refine List.filter_congr fun s _ => ?_
  rw [Bool.eq_iff_iff, Bool.not_eq_true', ← Bool.not_eq_true, absorbs_iff, decide_eq_true_iff]
  push Not
  rfl

theorem absorb_nodup (sets : List IndexSet) : ((absorb sets).map (·.members)).Nodup := by
  rw [absorb_eq]
  exact (firstOccurrences_nodup sets).sublist (List.filter_sublist.map _)

/-- What is left are the minimal sets of the list. -/
theorem mem_absorb_members (sets : List IndexSet) (C : Finset Nat) :
    C ∈ (absorb sets).map (·.members) ↔ Minimal (· ∈ sets.map (·.members)) C := by
  rw [absorb_eq]
  constructor
  · intro member
    obtain ⟨s, kept, rfl⟩ := List.mem_map.mp member
    obtain ⟨first, least⟩ := List.mem_filter.mp kept
    have least := of_decide_eq_true least
    refine ⟨List.mem_map_of_mem ((firstOccurrences_sublist sets).subset first), ?_⟩
    intro D known inside
    obtain ⟨t, other, rfl⟩ := List.mem_map.mp known
    by_contra strict
    exact least t other ⟨inside, strict⟩
  · intro minimal
    obtain ⟨s, first, rfl⟩ := List.mem_map.mp ((firstOccurrences_members sets C).mpr minimal.prop)
    refine List.mem_map_of_mem (List.mem_filter.mpr ⟨first, ?_⟩)
    refine decide_eq_true fun t other strict => ?_
    exact strict.2 (minimal.le_of_le (List.mem_map_of_mem other) strict.1)

/-! ## The absorption law -/

/-- Of an entry with its position: no set of the list is a strict subset of it, and none before it
equals it. -/
def Survives (sets : List IndexSet) (entry : IndexSet × Nat) : Prop :=
  (∀ t ∈ sets, ¬t.members ⊂ entry.1.members) ∧
    ∀ t ∈ sets.take entry.2, t.members ≠ entry.1.members

instance (sets : List IndexSet) (entry : IndexSet × Nat) : Decidable (Survives sets entry) :=
  inferInstanceAs (Decidable (_ ∧ _))

theorem absorb_eq_survivors (sets : List IndexSet) :
    absorb sets =
      (sets.zipIdx.filter fun entry => decide (Survives sets entry)).map (·.1) := by
  rw [absorb_eq, firstOccurrences, List.filter_map, List.filter_filter]
  congr 1
  refine List.filter_congr fun entry _ => ?_
  rw [isFirst, Function.comp_apply, ← Bool.decide_and]
  rfl

/-- Neither of two sets contains the other. -/
def Incomparable (s t : IndexSet) : Prop := ¬s.members ⊆ t.members ∧ ¬t.members ⊆ s.members

theorem Incomparable.members_ne {s t : IndexSet} (apart : Incomparable s t) :
    s.members ≠ t.members :=
  fun same => apart.1 same.subset

theorem absorb_pairwise (sets : List IndexSet) : (absorb sets).Pairwise Incomparable := by
  have least : ∀ s ∈ absorb sets, Minimal (· ∈ sets.map (·.members)) s.members := fun s kept =>
    (mem_absorb_members sets _).mp (List.mem_map_of_mem kept)
  refine (List.pairwise_map.mp (absorb_nodup sets)).imp_of_mem fun {s t} left right differ => ?_
  constructor
  · intro inside
    exact differ (inside.antisymm ((least t right).le_of_le (least s left).prop inside))
  · intro inside
    exact differ (((least s left).le_of_le (least t right).prop inside).antisymm inside)

theorem exists_mem_absorb {sets : List IndexSet} {s : IndexSet} (member : s ∈ sets) :
    ∃ t ∈ absorb sets, t.members ⊆ s.members := by
  obtain ⟨C, inside, minimal⟩ :=
    exists_minimal_le_of_wellFoundedLT (· ∈ sets.map (·.members)) s.members
      (List.mem_map_of_mem member)
  obtain ⟨t, kept, rfl⟩ := List.mem_map.mp ((mem_absorb_members sets C).mpr minimal)
  exact ⟨t, kept, inside⟩

theorem firstOccurrences_eq_self {sets : List IndexSet} (once : (sets.map (·.members)).Nodup) :
    firstOccurrences sets = sets :=
  firstsBy_eq_self IndexSet.members once

/-- Sets of which none contains another one stay as they are. -/
theorem absorb_eq_self {sets : List IndexSet} (apart : sets.Pairwise Incomparable) :
    absorb sets = sets := by
  have once : (sets.map (·.members)).Nodup :=
    List.pairwise_map.mpr (apart.imp Incomparable.members_ne)
  have none : ∀ ⦃t⦄, t ∈ sets → ∀ ⦃s⦄, s ∈ sets → ¬t.members ⊂ s.members := by
    refine List.Pairwise.forall_of_forall_of_flip (fun s _ strict => strict.ne rfl) ?_ ?_
    · exact apart.imp fun incomparable strict => incomparable.1 strict.subset
    · exact apart.imp fun incomparable strict => incomparable.2 strict.subset
  rw [absorb_eq, firstOccurrences_eq_self once]
  exact List.filter_eq_self.mpr fun s member => decide_eq_true fun t other => none other member

/-- The order of the list decides only the order of what is left. -/
theorem absorb_perm {sets others : List IndexSet} (shuffled : sets.Perm others) :
    ((absorb sets).map (·.members)).Perm ((absorb others).map (·.members)) := by
  refine (List.perm_ext_iff_of_nodup (absorb_nodup sets) (absorb_nodup others)).mpr fun C => ?_
  have listed : (· ∈ sets.map (·.members)) = (· ∈ others.map (·.members)) :=
    funext fun D => propext (shuffled.map _).mem_iff
  rw [mem_absorb_members, mem_absorb_members, listed]

end Covering

end TwoLevel
