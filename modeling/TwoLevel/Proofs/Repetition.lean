/-
# TwoLevel.Proofs.Repetition — dropping repetitions loses nothing

`distinct` keeps the first implicant of every key (`distinct_eq_firstsBy`). So what it keeps is a
sublist (`distinct_sublist`) with pairwise different keys (`distinct_keys`), no key is lost
(`exists_mem_distinct`), and a list of different keys stays as it is
(`distinct_eq_self_of_keys`). For implicants that represent cubes the key decides the
implicant, and then `distinct` changes neither membership (`mem_distinct`) nor a list
without repetitions (`distinct_eq_self`).
-/
import TwoLevel.Distinct
import TwoLevel.Proofs.Firsts
import TwoLevel.Proofs.Representation

namespace TwoLevel

set_option autoImplicit false

/-- Every implicant of the list represents a cube. -/
def AllCubes (implicants : List Implicant) : Prop := ∀ a ∈ implicants, ∃ c, a.Represents c

theorem AllCubes.of_subset {xs ys : List Implicant} (cubes : AllCubes ys) (inside : xs ⊆ ys) :
    AllCubes xs :=
  fun a member => cubes a (inside member)

theorem distinctFrom_cons (seen : List Implicant) (a : Implicant) (rest : List Implicant) :
    distinctFrom (ByMask.ofList seen) (a :: rest) =
      if a.key ∈ seen.map (·.key) then distinctFrom (ByMask.ofList seen) rest
      else a :: distinctFrom (ByMask.ofList (a :: seen)) rest := by
  have known : repeats (ByMask.ofList seen) a = true ↔ a.key ∈ seen.map (·.key) := by
    rw [repeats_ofList, List.any_eq_true, List.mem_map]
    simp only [beq_iff_eq]
  have step : ByMask.ofList (a :: seen) = (ByMask.ofList seen).add a := rfl
  rw [distinctFrom, step]
  by_cases old : a.key ∈ seen.map (·.key)
  · rw [if_pos (known.mpr old), if_pos old]
  · rw [if_neg fun new => old (known.mp new), if_neg old]

/-- One more implicant at the end is kept if its key is new. -/
theorem distinctFrom_concat (seen implicants : List Implicant) (a : Implicant) :
    distinctFrom (ByMask.ofList seen) (implicants ++ [a]) =
      distinctFrom (ByMask.ofList seen) implicants ++
        if a.key ∈ (implicants ++ seen).map (·.key) then [] else [a] := by
  induction implicants generalizing seen with
  | nil =>
      rw [List.nil_append, distinctFrom_cons]
      rfl
  | cons b rest ih =>
      rw [List.cons_append, distinctFrom_cons, distinctFrom_cons]
      split
      · next old =>
        rw [ih seen]
        congr 1
        refine if_congr ?_ rfl rfl
        simp only [List.map_append, List.map_cons, List.mem_append, List.mem_cons] at old ⊢
        constructor
        · rintro (later | before)
          · exact .inl (.inr later)
          · exact .inr before
        · rintro ((same | later) | before)
          · exact .inr (same ▸ old)
          · exact .inl later
          · exact .inr before
      · rw [ih (b :: seen), List.cons_append]
        congr 2
        refine if_congr ?_ rfl rfl
        simp only [List.map_append, List.map_cons, List.mem_append, List.mem_cons]
        rw [or_left_comm, or_assoc]

/-- What is kept are the implicants at the positions where their key is new. -/
theorem distinct_eq_firstsBy (implicants : List Implicant) :
    distinct implicants = firstsBy Implicant.key implicants := by
  induction implicants using List.reverseRecOn with
  | nil => rfl
  | append_singleton earlier last ih =>
      have step := distinctFrom_concat [] earlier last
      rw [List.append_nil] at step
      rw [firstsBy_concat, ← ih]
      refine step.trans (congrArg _ ?_)
      by_cases known : last.key ∈ earlier.map Implicant.key
      · rw [if_pos known, if_pos known]
      · rw [if_neg known, if_neg known]

theorem distinct_sublist (implicants : List Implicant) :
    (distinct implicants).Sublist implicants := by
  rw [distinct_eq_firstsBy]
  exact firstsBy_sublist _ implicants

theorem distinct_keys (implicants : List Implicant) :
    ((distinct implicants).map (·.key)).Nodup := by
  rw [distinct_eq_firstsBy]
  exact nodup_map_firstsBy _ implicants

theorem distinct_nodup (implicants : List Implicant) : (distinct implicants).Nodup :=
  (distinct_keys implicants).of_map _

/-- Every key of the list is kept. -/
theorem exists_mem_distinct {implicants : List Implicant} {a : Implicant}
    (member : a ∈ implicants) :
    ∃ b ∈ distinct implicants, b.key = a.key := by
  rw [distinct_eq_firstsBy]
  exact List.mem_map.mp ((mem_map_firstsBy _ implicants _).mpr (List.mem_map_of_mem member))

/-- Where the key decides the implicant nothing is lost at all. -/
theorem mem_distinct_of_decides {implicants : List Implicant}
    (decides : ∀ a ∈ implicants, ∀ b ∈ implicants, b.key = a.key → b = a) {a : Implicant} :
    a ∈ distinct implicants ↔ a ∈ implicants := by
  have inside : distinct implicants ⊆ implicants := (distinct_sublist implicants).subset
  refine ⟨fun kept => inside kept, fun member => ?_⟩
  obtain ⟨b, kept, same⟩ := exists_mem_distinct member
  exact decides a member b (inside kept) same ▸ kept

theorem AllCubes.decides {implicants : List Implicant} (cubes : AllCubes implicants) :
    ∀ a ∈ implicants, ∀ b ∈ implicants, b.key = a.key → b = a := by
  intro a left b right same
  obtain ⟨c, repr⟩ := cubes a left
  obtain ⟨d, reprOther⟩ := cubes b right
  exact reprOther.eq_of_key_eq repr same

/-- The cubes of a list are all kept. -/
theorem mem_distinct {implicants : List Implicant} (cubes : AllCubes implicants) {a : Implicant} :
    a ∈ distinct implicants ↔ a ∈ implicants :=
  mem_distinct_of_decides cubes.decides

/-- A list of different keys has nothing to drop. -/
theorem distinct_eq_self_of_keys {implicants : List Implicant}
    (once : (implicants.map (·.key)).Nodup) : distinct implicants = implicants := by
  rw [distinct_eq_firstsBy]
  exact firstsBy_eq_self _ once

/-- A list of cubes without repetitions stays as it is. -/
theorem distinct_eq_self {implicants : List Implicant} (cubes : AllCubes implicants)
    (once : implicants.Nodup) : distinct implicants = implicants := by
  apply distinct_eq_self_of_keys
  exact once.map_on fun a left b right same => cubes.decides b right a left same

end TwoLevel
