/-
# TwoLevel.Proofs.Firsts — the first entry of every key

`firstsBy` says by positions which entries of a list are first with their key. One more entry at
the end is kept if its key is new (`firstsBy_concat`), and from this follows by induction from the
end what the kept entries are: a sublist with every key of the list, each once. A list of
different keys stays as it is (`firstsBy_eq_self`), and of two lists one after the other the
second gives those of its own first entries whose key the other one lacks (`firstsBy_append`).
-/
import Mathlib.Data.List.Induction
import Mathlib.Data.List.Nodup
import Mathlib.Data.List.Perm.Subperm
import Mathlib.Data.Nat.Find
import Mathlib.Tactic.Push

namespace TwoLevel

set_option autoImplicit false

section Firsts

variable {α β : Type} [DecidableEq β] (key : α → β) (l : List α)

/-- Whether no entry of the list before this position has the key of the entry there. -/
def isFirstBy (entry : α × Nat) : Bool := decide (∀ b ∈ l.take entry.2, key b ≠ key entry.1)

/-- The entries whose key no earlier entry of the list has, in order. -/
def firstsBy : List α := (l.zipIdx.filter (isFirstBy key l)).map (·.1)

theorem firstsBy_concat (a : α) :
    firstsBy key (l ++ [a]) = firstsBy key l ++ if key a ∈ l.map key then [] else [a] := by
  have earlier : l.zipIdx.filter (isFirstBy key (l ++ [a])) =
      l.zipIdx.filter (isFirstBy key l) := by
    refine List.filter_congr fun entry member => ?_
    have bound : entry.2 < l.length := by simpa using List.snd_lt_of_mem_zipIdx member
    rw [isFirstBy, isFirstBy, List.take_append_of_le_length (Nat.le_of_lt bound)]
  have last : isFirstBy key (l ++ [a]) (a, l.length) = true ↔ key a ∉ l.map key := by
    rw [isFirstBy, decide_eq_true_iff, List.take_left, List.mem_map]
    push Not
    rfl
  rw [firstsBy, List.zipIdx_append, List.filter_append, List.map_append, earlier, firstsBy,
    List.zipIdx_singleton, Nat.zero_add, List.filter_singleton, cond_eq_ite]
  congr 1
  by_cases known : key a ∈ l.map key
  · rw [if_pos known, if_neg fun fresh => last.mp fresh known]
    rfl
  · rw [if_neg known, if_pos (last.mpr known)]
    rfl

theorem firstsBy_sublist : (firstsBy key l).Sublist l := by
  have kept : (firstsBy key l).Sublist (l.zipIdx.map (·.1)) := List.filter_sublist.map _
  rwa [List.zipIdx_map_fst] at kept

/-- Every key of the list is kept. -/
theorem mem_map_firstsBy (k : β) : k ∈ (firstsBy key l).map key ↔ k ∈ l.map key := by
  induction l using List.reverseRecOn with
  | nil => rfl
  | append_singleton earlier last ih =>
      rw [firstsBy_concat, List.map_append, List.map_append, List.mem_append, List.mem_append, ih]
      split
      · next known =>
        rw [List.map_nil, List.map_singleton, List.mem_singleton]
        constructor
        · exact fun old => .inl (old.resolve_right List.not_mem_nil)
        · rintro (old | rfl)
          · exact .inl old
          · exact .inl known
      · rfl

theorem nodup_map_firstsBy : ((firstsBy key l).map key).Nodup := by
  induction l using List.reverseRecOn with
  | nil => exact List.nodup_nil
  | append_singleton earlier last ih =>
      rw [firstsBy_concat, List.map_append]
      split
      · simpa using ih
      · next fresh =>
        refine List.nodup_append.mpr ⟨ih, List.nodup_singleton _, fun k old k' new => ?_⟩
        rintro rfl
        rw [List.map_singleton, List.mem_singleton] at new
        exact fresh (new ▸ (mem_map_firstsBy key earlier k).mp old)

variable {l}

/-- A list of different keys has nothing to drop. -/
theorem firstsBy_eq_self (once : (l.map key).Nodup) : firstsBy key l = l := by
  have kept : l.map key ⊆ (firstsBy key l).map key := fun k => (mem_map_firstsBy key l k).mpr
  apply (firstsBy_sublist key l).eq_of_length_le
  simpa only [List.length_map] using (once.subperm kept).length_le

/-- Every entry has the key of a kept one that is not behind it. -/
theorem exists_first {i : Nat} {a : α} (here : l[i]? = some a) :
    ∃ j ≤ i, ∃ b, l[j]? = some b ∧ key b = key a ∧ ∀ c ∈ l.take j, key c ≠ key b := by
  have some : ∃ j b, l[j]? = some b ∧ key b = key a := ⟨i, a, here, rfl⟩
  classical
  obtain ⟨b, there, same⟩ := Nat.find_spec some
  refine ⟨Nat.find some, Nat.find_min' some ⟨a, here, rfl⟩, b, there, same, ?_⟩
  intro c before also
  obtain ⟨k, bound, rfl⟩ := List.mem_take_iff_getElem.mp before
  have earlier : k < Nat.find some := Nat.lt_of_lt_of_le bound (Nat.min_le_left _ _)
  exact Nat.find_min some earlier ⟨_, List.getElem?_eq_getElem _, also.trans same⟩

variable (l) in
theorem firstsBy_append (more : List α) :
    firstsBy key (l ++ more) =
      firstsBy key l ++ (firstsBy key more).filter fun a => decide (key a ∉ l.map key) := by
  induction more using List.reverseRecOn with
  | nil => rw [List.append_nil]; exact (List.append_nil _).symm
  | append_singleton earlier last ih =>
      rw [← List.append_assoc, firstsBy_concat, ih, firstsBy_concat, List.filter_append,
        List.append_assoc, List.map_append]
      congr 2
      have kept : ([last].filter fun a => decide (key a ∉ l.map key)) =
          if key last ∈ l.map key then [] else [last] := by
        rw [List.filter_singleton, cond_eq_ite]
        by_cases before : key last ∈ l.map key
        · rw [if_pos before, if_neg (by simpa using before)]
        · rw [if_neg before, if_pos (decide_eq_true before)]
      by_cases known : key last ∈ earlier.map key
      · rw [if_pos (List.mem_append_right _ known), if_pos known]
        rfl
      · rw [if_neg known, kept]
        simp only [List.mem_append, known, or_false]

end Firsts

end TwoLevel
