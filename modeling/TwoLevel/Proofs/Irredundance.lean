/-
# TwoLevel.Proofs.Irredundance — the expansion lists every irredundant covering

A covering meets the clause of every minterm. `Enumerates` says that a list of
combinations is the list of the minimal sets that meet given clauses, each once. The
empty combination enumerates no clauses, and multiplying by one clause and absorbing
leads from some clauses to one more (`Enumerates.step`). Two facts carry the step,
neither of them about lists:

* every expanded combination meets all clauses, and whatever meets all clauses contains
  an expanded combination, kept as it is or with one index more (`expand_complete`);
* so the minimal sets that meet the clauses are the minimal expanded combinations, which
  are what absorption leaves (`Enumerates.step`).

`expandAll_enumerates` is the run, whatever the budget, as long as it ends in an answer.
`clauses_eq` says when there are clauses at all, and `Covers` is what they mean for the
minterms (`hits_iff_covers`).
-/
import Mathlib.Data.Finset.Powerset
import TwoLevel.Covering.Expansion
import TwoLevel.Proofs.Absorbing

namespace TwoLevel

set_option autoImplicit false

namespace Covering

/-- The set has a member in every clause. -/
def Hits (clauses : List IndexSet) (C : Finset Nat) : Prop :=
  ∀ clause ∈ clauses, ∃ i ∈ clause.members, i ∈ C

/-- The candidates at the positions in `C` cover every minterm of the list. -/
def Covers (uncovered : List Word) (candidates : List Implicant) (C : Finset Nat) : Prop :=
  ∀ m ∈ uncovered, ∃ i ∈ C, ∃ a, candidates[i]? = some a ∧ a.covers m = true

instance (uncovered : List Word) (candidates : List Implicant) (C : Finset Nat) :
    Decidable (Covers uncovered candidates C) :=
  decidable_of_iff
    (uncovered.all (fun m => decide (∃ i ∈ C, candidates[i]?.any (·.covers m) = true)) = true)
    (by simp only [Covers, List.all_eq_true, decide_eq_true_iff, Option.any_eq_true])

/-- The combinations are the minimal sets that meet every clause, each once. -/
structure Enumerates (clauses combinations : List IndexSet) : Prop where
  once : (combinations.map (·.members)).Nodup
  exact : ∀ C, C ∈ combinations.map (·.members) ↔ Minimal (Hits clauses) C

/-! ## One clause -/

section Step

variable {clauses combinations : List IndexSet} {clause : IndexSet}

theorem hits_append (C : Finset Nat) :
    Hits (clauses ++ [clause]) C ↔ Hits clauses C ∧ ∃ i ∈ clause.members, i ∈ C := by
  constructor
  · intro hits
    exact ⟨fun c member => hits c (List.mem_append_left _ member),
      hits clause (List.mem_append_right _ (List.mem_singleton_self _))⟩
  · rintro ⟨earlier, last⟩ c member
    rcases List.mem_append.mp member with old | new
    · exact earlier c old
    · rw [List.mem_singleton.mp new]
      exact last

theorem Hits.mono {C D : Finset Nat} (hits : Hits clauses C) (inside : C ⊆ D) : Hits clauses D := by
  intro c member
  obtain ⟨i, own, chosen⟩ := hits c member
  exact ⟨i, own, inside chosen⟩

/-- A combination that meets the clause stays, another one takes each of its members. -/
theorem mem_expand_members (C : Finset Nat) :
    C ∈ (expand combinations clause).map (·.members) ↔
      ∃ s ∈ combinations,
        ((∃ i ∈ clause.members, i ∈ s.members) ∧ C = s.members) ∨
        ((∀ i ∈ clause.members, i ∉ s.members) ∧ ∃ i ∈ clause.members, C = insert i s.members) := by
  have met (s : IndexSet) : clause.toList.any s.contains = true ↔
      ∃ i ∈ clause.members, i ∈ s.members := by
    simp [List.any_eq_true]
  rw [List.mem_map]
  constructor
  · rintro ⟨t, expanded, rfl⟩
    obtain ⟨s, known, source⟩ := List.mem_flatMap.mp expanded
    refine ⟨s, known, ?_⟩
    split at source
    · rename_i meets
      exact .inl ⟨(met s).mp meets, congrArg _ (List.mem_singleton.mp source)⟩
    · rename_i misses
      obtain ⟨i, own, rfl⟩ := List.mem_map.mp source
      refine .inr ⟨fun j member chosen => misses ((met s).mpr ⟨j, member, chosen⟩), i, ?_, ?_⟩
      · rwa [IndexSet.mem_members, ← IndexSet.mem_toList]
      · rw [IndexSet.members_insert]
  · rintro ⟨s, known, ⟨meets, rfl⟩ | ⟨misses, i, own, rfl⟩⟩
    · refine ⟨s, List.mem_flatMap.mpr ⟨s, known, ?_⟩, rfl⟩
      rw [if_pos ((met s).mpr meets)]
      exact List.mem_singleton_self s
    · refine ⟨s.insert i, List.mem_flatMap.mpr ⟨s, known, ?_⟩, IndexSet.members_insert s i⟩
      have fails : ¬clause.toList.any s.contains = true := by
        rw [met]
        rintro ⟨j, member, chosen⟩
        exact misses j member chosen
      rw [if_neg fails]
      exact List.mem_map_of_mem (by rwa [IndexSet.mem_toList, ← IndexSet.mem_members])

theorem expand_sound (sound : ∀ s ∈ combinations, Hits clauses s.members) (C : Finset Nat)
    (member : C ∈ (expand combinations clause).map (·.members)) : Hits (clauses ++ [clause]) C := by
  obtain ⟨s, known, ⟨meets, rfl⟩ | ⟨-, i, own, rfl⟩⟩ := (mem_expand_members C).mp member
  · exact (hits_append _).mpr ⟨sound s known, meets⟩
  · refine (hits_append _).mpr ⟨(sound s known).mono (Finset.subset_insert _ _), i, own, ?_⟩
    exact Finset.mem_insert_self i _

theorem expand_complete (complete : ∀ D, Hits clauses D → ∃ s ∈ combinations, s.members ⊆ D)
    (D : Finset Nat) (hits : Hits (clauses ++ [clause]) D) :
    ∃ C ∈ (expand combinations clause).map (·.members), C ⊆ D := by
  obtain ⟨earlier, i, own, chosen⟩ := (hits_append D).mp hits
  obtain ⟨s, known, inside⟩ := complete D earlier
  by_cases meets : ∃ j ∈ clause.members, j ∈ s.members
  · exact ⟨s.members, (mem_expand_members _).mpr ⟨s, known, .inl ⟨meets, rfl⟩⟩, inside⟩
  · push Not at meets
    refine ⟨insert i s.members,
      (mem_expand_members _).mpr ⟨s, known, .inr ⟨meets, i, own, rfl⟩⟩, ?_⟩
    exact Finset.insert_subset chosen inside

theorem Enumerates.sound (known : Enumerates clauses combinations) :
    ∀ s ∈ combinations, Hits clauses s.members :=
  fun _ member => ((known.exact _).mp (List.mem_map_of_mem member)).prop

/-- Whatever meets the clauses contains a combination. -/
theorem Enumerates.complete (known : Enumerates clauses combinations) (D : Finset Nat)
    (hits : Hits clauses D) : ∃ s ∈ combinations, s.members ⊆ D := by
  obtain ⟨C, inside, minimal⟩ := exists_minimal_le_of_wellFoundedLT (Hits clauses) D hits
  obtain ⟨s, member, rfl⟩ := List.mem_map.mp ((known.exact C).mpr minimal)
  exact ⟨s, member, inside⟩

theorem enumerates_nil : Enumerates [] [IndexSet.empty] where
  once := List.nodup_singleton _
  exact C := by
    rw [List.map_singleton, List.mem_singleton, IndexSet.members_empty]
    constructor
    · rintro rfl
      refine ⟨fun c member => ?_, fun D _ _ => Finset.empty_subset D⟩
      cases member
    · intro minimal
      refine Finset.subset_empty.mp (minimal.le_of_le ?_ (Finset.empty_subset C))
      intro c member
      cases member

/-- Multiplying by a clause and absorbing enumerates one clause more. -/
theorem Enumerates.step (known : Enumerates clauses combinations) (clause : IndexSet) :
    Enumerates (clauses ++ [clause]) (absorb (expand combinations clause)) where
  once := absorb_nodup _
  exact C := by
    rw [mem_absorb_members]
    refine (minimal_iff_minimal_of_imp_of_forall (expand_sound known.sound) fun D hits => ?_).symm
    obtain ⟨E, expanded, inside⟩ := expand_complete known.complete D hits
    exact ⟨E, inside, expanded⟩

end Step

/-! ## All clauses -/

theorem expandAll_enumerates {budget : Option Nat}
    {done clauses combinations result : List IndexSet}
    (known : Enumerates done combinations)
    (answered : (expandAll budget combinations clauses).outcome = .ok result) :
    Enumerates (done ++ clauses) result := by
  induction clauses generalizing done combinations with
  | nil =>
      rw [List.append_nil]
      exact Except.ok.inj answered ▸ known
  | cons clause rest ih =>
      simp only [expandAll] at answered
      split at answered
      · cases answered
      · have later := ih (known.step clause) answered
        rwa [List.append_assoc] at later

theorem expandAll_unlimited (combinations clauses : List IndexSet) :
    ∃ result, (expandAll none combinations clauses).outcome = .ok result := by
  induction clauses generalizing combinations with
  | nil => exact ⟨combinations, rfl⟩
  | cons clause rest ih => exact ih _

theorem mem_clause_members {candidates : List Implicant} {m : Word} {i : Nat} :
    i ∈ (clause candidates m).members ↔ ∃ a, candidates[i]? = some a ∧ a.covers m = true := by
  rw [clause, IndexSet.members_ofList, List.mem_toFinset, List.mem_map]
  constructor
  · rintro ⟨⟨a, j⟩, member, rfl⟩
    obtain ⟨listed, covers⟩ := List.mem_filter.mp member
    exact ⟨a, List.mem_zipIdx_iff_getElem?.mp listed, covers⟩
  · rintro ⟨a, listed, covers⟩
    exact ⟨(a, i), List.mem_filter.mpr ⟨List.mem_zipIdx_iff_getElem?.mpr listed, covers⟩, rfl⟩

theorem clause_isEmpty_iff {candidates : List Implicant} {m : Word} :
    (clause candidates m).isEmpty = !candidates.any (·.covers m) := by
  rw [Bool.eq_iff_iff, IndexSet.isEmpty_iff, Finset.eq_empty_iff_forall_notMem,
    Bool.not_eq_true', List.any_eq_false]
  constructor
  · intro empty a member covers
    obtain ⟨i, listed⟩ := List.mem_iff_getElem?.mp member
    exact empty i (mem_clause_members.mpr ⟨a, listed, covers⟩)
  · intro none i member
    obtain ⟨a, listed, covers⟩ := mem_clause_members.mp member
    exact none a (List.mem_of_getElem? listed) covers

/-- There is a clause for each minterm, unless no candidate covers one of them. -/
theorem clauses_eq (candidates : List Implicant) (uncovered : List Word) :
    clauses candidates uncovered =
      match uncovered.find? fun m => !candidates.any (·.covers m) with
      | some m => .error (.uncoverable m)
      | none => .ok (uncovered.map (clause candidates)) := by
  induction uncovered with
  | nil => rfl
  | cons m rest ih =>
      rw [clauses, clause_isEmpty_iff, List.find?_cons]
      cases missing : !candidates.any (·.covers m) with
      | true => rfl
      | false =>
          rw [ih]
          cases rest.find? fun m => !candidates.any (·.covers m) <;> rfl

theorem hits_iff_covers (candidates : List Implicant) (uncovered : List Word) (C : Finset Nat) :
    Hits (uncovered.map (clause candidates)) C ↔ Covers uncovered candidates C := by
  simp only [Hits, Covers, List.forall_mem_map, mem_clause_members]
  refine forall₂_congr fun m _ => ?_
  constructor
  · rintro ⟨i, found, chosen⟩; exact ⟨i, chosen, found⟩
  · rintro ⟨i, chosen, found⟩; exact ⟨i, found, chosen⟩

theorem hits_eq_covers (candidates : List Implicant) (uncovered : List Word) :
    Hits (uncovered.map (clause candidates)) = Covers uncovered candidates :=
  funext fun C => propext (hits_iff_covers candidates uncovered C)

/-- What an answer within any budget lists. -/
theorem irredundant_ok {uncovered : List Word} {candidates : List Implicant} {budget : Option Nat}
    {combinations : List IndexSet}
    (answered : irredundant uncovered candidates budget = .ok combinations) :
    (combinations.map (·.members)).Nodup ∧
      ∀ C, C ∈ combinations.map (·.members) ↔ Minimal (Covers uncovered candidates) C := by
  rw [irredundant, expansion, clauses_eq] at answered
  cases missing : uncovered.find? fun m => !candidates.any (·.covers m) with
  | some m => rw [missing] at answered; cases answered
  | none =>
      rw [missing] at answered
      have listed := expandAll_enumerates enumerates_nil answered
      rw [List.nil_append] at listed
      exact ⟨listed.once, hits_eq_covers candidates uncovered ▸ listed.exact⟩

/-- If every minterm has a candidate, the clauses are there to be multiplied. -/
theorem irredundant_eq {uncovered : List Word} {candidates : List Implicant}
    (coverable : ∀ m ∈ uncovered, ∃ a ∈ candidates, a.covers m = true) (budget : Option Nat) :
    irredundant uncovered candidates budget =
      (expandAll budget [IndexSet.empty] (uncovered.map (clause candidates))).outcome := by
  have nothing : uncovered.find? (fun m => !candidates.any (·.covers m)) = none := by
    refine List.find?_eq_none.mpr fun m member => ?_
    rw [Bool.not_eq_true', ← Bool.not_eq_true, not_not, List.any_eq_true]
    exact coverable m member
  rw [irredundant, expansion, clauses_eq, nothing]

/-- Without a budget there is an answer as soon as every minterm has a candidate. -/
theorem exists_irredundant {uncovered : List Word} {candidates : List Implicant}
    (coverable : ∀ m ∈ uncovered, ∃ a ∈ candidates, a.covers m = true) :
    ∃ combinations, irredundant uncovered candidates none = .ok combinations := by
  rw [irredundant_eq coverable]
  exact expandAll_unlimited _ _

/-- A minimal covering uses only positions of candidates. -/
theorem lt_of_minimal_covers {uncovered : List Word} {candidates : List Implicant} {C : Finset Nat}
    (minimal : Minimal (Covers uncovered candidates) C) : ∀ i ∈ C, i < candidates.length := by
  intro i member
  have inUse : Covers uncovered candidates (C.filter (· < candidates.length)) := by
    intro m listed
    obtain ⟨j, chosen, a, known, covers⟩ := minimal.prop m listed
    obtain ⟨bound, -⟩ := List.getElem?_eq_some_iff.mp known
    exact ⟨j, Finset.mem_filter.mpr ⟨chosen, bound⟩, a, known, covers⟩
  have whole := minimal.le_of_le inUse (Finset.filter_subset _ C)
  exact (Finset.mem_filter.mp (whole member)).2

/-- In every covering there is a minimal one. -/
theorem exists_minimal_covers {uncovered : List Word} {candidates : List Implicant} {C : Finset Nat}
    (covers : Covers uncovered candidates C) : ∃ D ⊆ C, Minimal (Covers uncovered candidates) D :=
  exists_minimal_le_of_wellFoundedLT _ C covers

theorem covers_range {uncovered : List Word} {candidates : List Implicant}
    (coverable : ∀ m ∈ uncovered, ∃ a ∈ candidates, a.covers m = true) :
    Covers uncovered candidates (Finset.range candidates.length) := by
  intro m listed
  obtain ⟨a, member, covers⟩ := coverable m listed
  obtain ⟨i, below, rfl⟩ := List.getElem_of_mem member
  exact ⟨i, Finset.mem_range.mpr below, _, List.getElem?_eq_getElem below, covers⟩

/-- What is listed names candidates only. -/
theorem lt_of_irredundant {uncovered : List Word} {candidates : List Implicant}
    {budget : Option Nat} {combinations : List IndexSet}
    (answered : irredundant uncovered candidates budget = .ok combinations) {C : IndexSet}
    (listed : C ∈ combinations) : ∀ i ∈ C.members, i < candidates.length := by
  obtain ⟨-, minimal⟩ := irredundant_ok answered
  exact lt_of_minimal_covers ((minimal _).mp (List.mem_map_of_mem listed))

/-- If every minterm has a candidate, all candidates together contain something to list. -/
theorem irredundant_ne_nil {uncovered : List Word} {candidates : List Implicant}
    {budget : Option Nat} {combinations : List IndexSet}
    (coverable : ∀ m ∈ uncovered, ∃ a ∈ candidates, a.covers m = true)
    (answered : irredundant uncovered candidates budget = .ok combinations) :
    combinations ≠ [] := by
  obtain ⟨-, listed⟩ := irredundant_ok answered
  rintro rfl
  obtain ⟨D, -, minimal⟩ := exists_minimal_covers (covers_range coverable)
  cases (listed D).mpr minimal

/-- **Petrick's method is exact.** If every minterm has a candidate, the answer lists the
irredundant coverings, each once: the sets of positions whose candidates cover every
minterm while those of no proper subset do. Otherwise the first minterm without a
candidate is the error. -/
theorem irredundant_exact (uncovered : List Word) (candidates : List Implicant) :
    ((∀ m ∈ uncovered, ∃ a ∈ candidates, a.covers m = true) →
      ∃ combinations, irredundant uncovered candidates none = .ok combinations ∧
        (combinations.map (·.members)).Nodup ∧
        ∀ C : Finset Nat, C ∈ combinations.map (·.members) ↔
          (∀ i ∈ C, i < candidates.length) ∧ Covers uncovered candidates C ∧
            ∀ D, D ⊂ C → ¬Covers uncovered candidates D) ∧
    ∀ before m after, uncovered = before ++ m :: after →
      (∀ x ∈ before, ∃ a ∈ candidates, a.covers x = true) →
      (∀ a ∈ candidates, a.covers m = false) →
      irredundant uncovered candidates none = .error (.uncoverable m) := by
  constructor
  · intro coverable
    obtain ⟨combinations, answered⟩ := exists_irredundant coverable
    obtain ⟨once, exact⟩ := irredundant_ok answered
    refine ⟨combinations, answered, once, fun C => (exact C).trans ?_⟩
    constructor
    · intro minimal
      refine ⟨lt_of_minimal_covers minimal, minimal.prop, fun D strict covers => ?_⟩
      exact strict.2 (minimal.le_of_le covers strict.1)
    · rintro ⟨-, covers, least⟩
      refine ⟨covers, fun D other inside => ?_⟩
      by_contra strict
      exact least D ⟨inside, strict⟩ other
  · rintro before m after rfl earlier missing
    have first : (before ++ m :: after).find? (fun m => !candidates.any (·.covers m)) = some m := by
      have here : (!candidates.any (·.covers m)) = true := by
        rw [Bool.not_eq_true', List.any_eq_false]
        exact fun a member covers => by simp [missing a member] at covers
      have covered : before.find? (fun m => !candidates.any (·.covers m)) = none := by
        refine List.find?_eq_none.mpr fun x member => ?_
        rw [Bool.not_eq_true', ← Bool.not_eq_true, not_not, List.any_eq_true]
        exact earlier x member
      rw [List.find?_append, covered, List.find?_cons, here]
      rfl
    rw [irredundant, expansion, clauses_eq, first]

/-- Six minterms in a ring and the six pairs of neighbours: every other pair covers the
ring, while three in a row leave a minterm over. With the last two pairs taken away, seven is
the first minterm without a pair. -/
theorem irredundant_exact_ring :
    (∃ combinations, irredundant [0, 1, 2, 5, 6, 7]
        [⟨[0, 1], 1, 0⟩, ⟨[0, 2], 2, 0⟩, ⟨[1, 5], 4, 1⟩, ⟨[2, 6], 4, 2⟩, ⟨[5, 7], 2, 5⟩,
          ⟨[6, 7], 1, 6⟩] none = .ok combinations ∧
      {0, 3, 4} ∈ combinations.map (·.members) ∧
      {0, 2, 4} ∉ combinations.map (·.members)) ∧
    irredundant [0, 1, 7, 6] [⟨[0, 1], 1, 0⟩, ⟨[0, 2], 2, 0⟩, ⟨[1, 5], 4, 1⟩, ⟨[2, 6], 4, 2⟩]
      none = .error (.uncoverable 7) := by
  constructor
  · obtain ⟨combinations, answered, -, exact⟩ := (irredundant_exact [0, 1, 2, 5, 6, 7]
      [⟨[0, 1], 1, 0⟩, ⟨[0, 2], 2, 0⟩, ⟨[1, 5], 4, 1⟩, ⟨[2, 6], 4, 2⟩, ⟨[5, 7], 2, 5⟩,
        ⟨[6, 7], 1, 6⟩]).1 (by simp [Implicant.covers])
    refine ⟨combinations, answered, (exact _).mpr ⟨by decide, by decide, ?_⟩, fun listed => ?_⟩
    · simp only [← Finset.mem_ssubsets]
      decide
    · exact absurd ((exact _).mp listed).2.1 (by decide)
  · exact (irredundant_exact _ _).2 [0, 1] 7 [6] rfl
      (by simp [Implicant.covers]) (by decide)

end Covering

end TwoLevel
