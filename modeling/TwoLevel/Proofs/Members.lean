/-
# TwoLevel.Proofs.Members — index sets as finite sets

`IndexSet.members` is the finite set that an index set stands for. Its list is this set
in ascending order (`pairwise_toList`), its size the number of members
(`card_members`), and two sets with the same members have the same list
(`toList_eq_iff`), whatever words they are packed into.
-/
import Mathlib.Data.Finset.Card
import Mathlib.Data.Finset.Insert
import TwoLevel.IndexSet

namespace TwoLevel

set_option autoImplicit false

namespace Packed

theorem pairwise_membersFrom (ws : List Word) (start : Nat) :
    (membersFrom start ws).Pairwise (· < ·) := by
  induction ws generalizing start with
  | nil => exact List.Pairwise.nil
  | cons w ws ih =>
      rw [membersFrom, List.pairwise_append]
      refine ⟨?_, ih _, fun i low j high => ?_⟩
      · rw [List.pairwise_map]
        refine (List.pairwise_lt_range.filter _).imp fun less => ?_
        exact Nat.add_lt_add_left less start
      · -- a member in this word is below `start + 64`, one in a later word is not
        obtain ⟨b, set, rfl⟩ := List.mem_map.mp low
        obtain ⟨k, b', -, rfl⟩ := mem_membersFrom.mp high
        have below := Word.lt_of_bit (Word.mem_bits.mp set)
        omega

theorem length_membersFrom (ws : List Word) (start : Nat) :
    (membersFrom start ws).length = count ws := by
  induction ws generalizing start with
  | nil => rfl
  | cons w ws ih =>
      rw [membersFrom, List.length_append, List.length_map, Word.length_bits, ih, count]

end Packed

namespace IndexSet

/-- The finite set of the members. -/
def members (s : IndexSet) : Finset Nat := s.toList.toFinset

@[simp] theorem mem_members {s : IndexSet} {i : Nat} : i ∈ s.members ↔ s.contains i = true := by
  rw [members, List.mem_toFinset, mem_toList]

theorem pairwise_toList (s : IndexSet) : s.toList.Pairwise (· < ·) :=
  Packed.pairwise_membersFrom s.words 0

theorem nodup_toList (s : IndexSet) : s.toList.Nodup := s.pairwise_toList.imp Nat.ne_of_lt

theorem length_toList (s : IndexSet) : s.toList.length = s.size := by
  rw [toList, Packed.length_membersFrom, s.size_eq]

theorem card_members (s : IndexSet) : s.members.card = s.size := by
  rw [members, List.toFinset_card_of_nodup s.nodup_toList, length_toList]

/-- Sets with the same members are listed alike. -/
theorem toList_eq_iff {s t : IndexSet} : s.toList = t.toList ↔ s.members = t.members := by
  constructor
  · intro same; rw [members, members, same]
  · intro same
    have shuffled : s.toList.Perm t.toList := by
      refine (List.perm_ext_iff_of_nodup s.nodup_toList t.nodup_toList).mpr fun i => ?_
      rw [mem_toList, mem_toList, ← mem_members, ← mem_members, same]
    refine shuffled.eq_of_pairwise (fun i j _ _ less greater => ?_) s.pairwise_toList
      t.pairwise_toList
    exact absurd (Nat.lt_trans less greater) (Nat.lt_irrefl i)

@[simp] theorem members_empty : empty.members = ∅ := rfl

@[simp] theorem members_insert (s : IndexSet) (i : Nat) :
    (s.insert i).members = Insert.insert i s.members := by
  ext j
  rw [mem_members, contains_insert, Finset.mem_insert, mem_members, Bool.or_eq_true,
    decide_eq_true_iff, or_comm, eq_comm]

theorem members_extend (s : IndexSet) (indices : List Nat) :
    (s.extend indices).members = s.members ∪ indices.toFinset := by
  induction indices generalizing s with
  | nil => simp [extend]
  | cons i rest ih =>
      have step : s.extend (i :: rest) = (s.insert i).extend rest := rfl
      rw [step, ih, members_insert, List.toFinset_cons, Finset.insert_union, Finset.union_insert]

@[simp] theorem members_ofList (indices : List Nat) :
    (ofList indices).members = indices.toFinset := by
  rw [ofList, members_extend, members_empty, Finset.empty_union]

theorem isEmpty_iff {s : IndexSet} : s.isEmpty = true ↔ s.members = ∅ := by
  rw [isEmpty, beq_iff_eq, ← card_members, Finset.card_eq_zero]

theorem allBelow_iff {s : IndexSet} {length : Nat} :
    s.allBelow length = true ↔ ∀ i ∈ s.members, i < length := by
  simp only [allBelow, List.all_eq_true, decide_eq_true_iff, mem_toList, mem_members]

@[simp] theorem members_withCapacity (capacity : Nat) : (withCapacity capacity).members = ∅ := by
  ext i
  simp

/-! ## Entries at the members -/

section Pick

variable {α : Type} {s : IndexSet} {entries : List α} {a : α}

theorem mem_pick : a ∈ s.pick entries ↔ ∃ i ∈ s.members, entries[i]? = some a := by
  simp only [pick, List.mem_filterMap, mem_toList, mem_members]

theorem pick_subset : s.pick entries ⊆ entries := by
  intro a member
  obtain ⟨i, -, found⟩ := mem_pick.mp member
  exact List.mem_of_getElem? found

theorem nodup_pick (once : entries.Nodup) : (s.pick entries).Nodup := by
  refine List.Nodup.filterMap (fun i j a left right => ?_) s.nodup_toList
  obtain ⟨below, first⟩ := List.getElem?_eq_some_iff.mp left
  obtain ⟨_, second⟩ := List.getElem?_eq_some_iff.mp right
  exact (once.getElem_inj_iff).mp (first.trans second.symm)

/-- Sets with the same members pick the same entries. -/
theorem pick_eq_of_members {t : IndexSet} (same : s.members = t.members) :
    s.pick entries = t.pick entries := by
  rw [pick, pick, toList_eq_iff.mpr same]

/-- Positions within a list all have an entry. -/
theorem map_some_pick (fits : s.allBelow entries.length = true) :
    (s.pick entries).map some = s.toList.map fun i => entries[i]? := by
  have within : ∀ i ∈ s.toList, i < entries.length := by
    simpa [allBelow] using fits
  rw [pick]
  generalize s.toList = indices at within
  induction indices with
  | nil => rfl
  | cons i rest ih =>
      obtain ⟨first, others⟩ := List.forall_mem_cons.mp within
      have found : entries[i]? = some entries[i] := List.getElem?_eq_getElem first
      rw [List.filterMap_cons_some found, List.map_cons, List.map_cons, ih others, found]

end Pick

end IndexSet

end TwoLevel
