/-
# TwoLevel.Proofs.Budget — what a budget changes

The length of the list is compared with the budget after every step, and nothing else ever
stops an expansion (`expandAll_error`). A run within one limit never meets a weaker one, so
that it goes the same way step by step (`expandAll_weaken`). Of the covering as a whole the
second fact holds as it is (`irredundant_weaken`), the first one as soon as every minterm has
a candidate and the clauses are there (`irredundant_error`).

After `k` steps the list is that of the irredundant coverings of the first `k` minterms, so that
their number decides (`Enumerates.length_eq`). It may rise and fall from step to step: a run
fails at the first step with too many of them, whatever comes later (`expandAll_ok_or_first`).
-/
import TwoLevel.Proofs.Irredundance

namespace TwoLevel

set_option autoImplicit false

namespace Covering

/-- A limit that allows all the other one allows; none is no limit. -/
def Weaker (weaker limit : Option Nat) : Prop :=
  ∀ most, weaker = some most → ∃ least, limit = some least ∧ least ≤ most

theorem Weaker.none (limit : Option Nat) : Weaker none limit := by
  intro most impossible
  cases impossible

theorem overrun?_eq_some_iff {budget : Option Nat} {size limit : Nat} :
    overrun? budget size = some limit ↔ budget = some limit ∧ limit < size := by
  rw [overrun?, Option.filter_eq_some_iff, decide_eq_true_iff]

theorem overrun?_eq_none_iff {budget : Option Nat} {size : Nat} :
    overrun? budget size = none ↔ ∀ limit, budget = some limit → size ≤ limit := by
  simp only [overrun?, Option.filter_eq_none_iff, decide_eq_true_eq, Nat.not_lt]

/-- What is within a limit is within a weaker one. -/
theorem overrun?_weaken {budget weaker : Option Nat} {size : Nat}
    (within : overrun? budget size = none) (allows : Weaker weaker budget) :
    overrun? weaker size = none := by
  rw [overrun?_eq_none_iff] at within ⊢
  intro most found
  obtain ⟨least, known, smaller⟩ := allows most found
  exact (within least known).trans smaller

variable {budget weaker : Option Nat} {combinations clauses : List IndexSet}

/-- Only the budget stops an expansion. -/
theorem expandAll_error {cause : Error}
    (failed : (expandAll budget combinations clauses).outcome = .error cause) :
    ∃ size limit, cause = .coveringBudgetExceeded size limit ∧ budget = some limit ∧
      limit < size := by
  induction clauses generalizing combinations with
  | nil => cases failed
  | cons clause rest ih =>
      simp only [expandAll] at failed
      split at failed
      · rename_i limit exceeds
        cases failed
        exact ⟨_, limit, rfl, overrun?_eq_some_iff.mp exceeds⟩
      · exact ih failed

/-- An answer within a limit is the answer within every weaker one. -/
theorem expandAll_weaken {result : List IndexSet}
    (answered : (expandAll budget combinations clauses).outcome = .ok result)
    (allows : Weaker weaker budget) :
    (expandAll weaker combinations clauses).outcome = .ok result := by
  induction clauses generalizing combinations with
  | nil => exact answered
  | cons clause rest ih =>
      simp only [expandAll] at answered ⊢
      split at answered
      · cases answered
      · rename_i within
        rw [overrun?_weaken within allows]
        exact ih answered

variable {uncovered : List Word} {candidates : List Implicant}

/-- If every minterm has a candidate, only the budget stops a covering. -/
theorem irredundant_error (coverable : ∀ m ∈ uncovered, ∃ a ∈ candidates, a.covers m = true)
    {cause : Error} (failed : irredundant uncovered candidates budget = .error cause) :
    ∃ size limit, cause = .coveringBudgetExceeded size limit ∧ budget = some limit ∧
      limit < size := by
  rw [irredundant_eq coverable] at failed
  exact expandAll_error failed

theorem irredundant_weaken {result : List IndexSet}
    (answered : irredundant uncovered candidates budget = .ok result)
    (allows : Weaker weaker budget) : irredundant uncovered candidates weaker = .ok result := by
  simp only [irredundant, expansion] at answered ⊢
  cases listed : Covering.clauses candidates uncovered with
  | error cause => rw [listed] at answered; cases answered
  | ok all =>
      rw [listed] at answered
      exact expandAll_weaken answered allows

/-! ## The step that fails -/

/-- The sets of positions whose candidates cover the minterms while those of no proper subset
do. -/
def irredundantSets (uncovered : List Word) (candidates : List Implicant) : Finset (Finset Nat) :=
  (Finset.range candidates.length).powerset.filter fun C =>
    Covers uncovered candidates C ∧ ∀ D ∈ C.ssubsets, ¬Covers uncovered candidates D

/-- How many irredundant coverings the first `k` minterms have. -/
def irredundantCount (uncovered : List Word) (candidates : List Implicant) (k : Nat) : Nat :=
  (irredundantSets (uncovered.take k) candidates).card

/-- Of the numbers after step `start`, up to step `stop`, the one at step `k` is the first that
is larger than the limit. -/
structure FirstBeyond (limit : Nat) (count : Nat → Nat) (start stop k : Nat) : Prop where
  after : start < k
  within : k ≤ stop
  beyond : limit < count k
  earlier : ∀ j, start < j → j < k → count j ≤ limit

/-- What is within a limit after one step more is so from this step on. -/
theorem le_after_start {limit start : Nat} {count : Nat → Nat} {inside : Nat → Prop}
    (fits : count (start + 1) ≤ limit)
    (later : ∀ k, start + 1 < k → inside k → count k ≤ limit) :
    ∀ k, start < k → inside k → count k ≤ limit := by
  intro k after
  rcases Nat.eq_or_lt_of_le (Nat.succ_le_of_lt after) with rfl | further
  · exact fun _ => fits
  · exact later k further

theorem FirstBeyond.start_earlier {limit start stop k : Nat} {count : Nat → Nat}
    (first : FirstBeyond limit count (start + 1) stop k) (fits : count (start + 1) ≤ limit) :
    FirstBeyond limit count start stop k where
  after := Nat.lt_of_succ_lt first.after
  within := first.within
  beyond := first.beyond
  earlier := le_after_start fits first.earlier

theorem mem_irredundantSets {C : Finset Nat} :
    C ∈ irredundantSets uncovered candidates ↔ Minimal (Covers uncovered candidates) C := by
  simp only [irredundantSets, Finset.mem_filter, Finset.mem_powerset, Finset.mem_ssubsets]
  constructor
  · rintro ⟨-, covers, least⟩
    exact minimal_iff_forall_lt.mpr ⟨covers, fun D strict => least D strict⟩
  · intro minimal
    obtain ⟨covers, least⟩ := minimal_iff_forall_lt.mp minimal
    exact ⟨fun i member => Finset.mem_range.mpr (lt_of_minimal_covers minimal i member), covers,
      fun D strict => least strict⟩

/-- What enumerates the clauses of some minterms has an entry for each irredundant covering. -/
theorem Enumerates.length_eq (known : Enumerates (uncovered.map (clause candidates)) combinations) :
    combinations.length = (irredundantSets uncovered candidates).card := by
  have sets : (combinations.map (·.members)).toFinset = irredundantSets uncovered candidates := by
    ext C
    rw [List.mem_toFinset, known.exact, hits_eq_covers, mem_irredundantSets]
  rw [← sets, List.toFinset_card_of_nodup known.once, List.length_map]

/-- An expansion within a budget ends in an answer, or at the first step with too many
coverings. The minterms of `seen` are already multiplied out, those of `rest` are left. -/
theorem expandAll_ok_or_first (limit : Nat) {seen : List Word} (rest : List Word)
    (known : Enumerates (seen.map (clause candidates)) combinations) :
    ((∃ result, (expandAll (some limit) combinations (rest.map (clause candidates))).outcome =
        .ok result) ∧
      ∀ k, seen.length < k → k ≤ (seen ++ rest).length →
        irredundantCount (seen ++ rest) candidates k ≤ limit) ∨
    ∃ k, FirstBeyond limit (irredundantCount (seen ++ rest) candidates) seen.length
        (seen ++ rest).length k ∧
      (expandAll (some limit) combinations (rest.map (clause candidates))).outcome =
        .error (.coveringBudgetExceeded (irredundantCount (seen ++ rest) candidates k) limit) := by
  induction rest generalizing seen combinations with
  | nil =>
      refine .inl ⟨⟨combinations, rfl⟩, fun k later bound => ?_⟩
      rw [List.append_nil] at bound
      omega
  | cons m rest ih =>
      have longer : (seen ++ [m]).length = seen.length + 1 := List.length_append
      have next : Enumerates ((seen ++ [m]).map (clause candidates))
          (absorb (expand combinations (clause candidates m))) := by
        rw [List.map_append]
        exact known.step _
      have size : (absorb (expand combinations (clause candidates m))).length =
          irredundantCount (seen ++ [m] ++ rest) candidates (seen.length + 1) := by
        rw [next.length_eq, irredundantCount, List.take_left' longer]
      -- the number after this step is the only one that the run compares before it goes on
      rw [List.append_cons, List.map_cons, expandAll, size]
      cases exceeds : overrun? (some limit)
          (irredundantCount (seen ++ [m] ++ rest) candidates (seen.length + 1)) with
      | some beyond =>
          obtain ⟨found, larger⟩ := overrun?_eq_some_iff.mp exceeds
          obtain rfl := Option.some.inj found
          refine .inr ⟨seen.length + 1, ⟨Nat.lt_succ_self _, ?_, larger, ?_⟩, rfl⟩
          · rw [List.length_append, List.length_append]
            exact Nat.le_add_right _ _
          · exact fun j later before => absurd later (Nat.not_lt.mpr (Nat.le_of_lt_succ before))
      | none =>
          have fits := overrun?_eq_none_iff.mp exceeds limit rfl
          rcases ih next with ⟨⟨result, answered⟩, few⟩ | ⟨k, first, failed⟩
          · rw [longer] at few
            exact .inl ⟨⟨result, answered⟩, le_after_start fits few⟩
          · rw [longer] at first
            exact .inr ⟨k, first.start_earlier fits, failed⟩

/-- If some minterm has no candidate, the first such minterm is the error, whatever the budget. -/
theorem irredundant_uncoverable (missing : ∃ m ∈ uncovered, ∀ a ∈ candidates, a.covers m = false) :
    ∃ before m after, uncovered = before ++ m :: after ∧
      (∀ x ∈ before, ∃ a ∈ candidates, a.covers x = true) ∧
      (∀ a ∈ candidates, a.covers m = false) ∧
      ∀ budget, irredundant uncovered candidates budget = .error (.uncoverable m) := by
  have lacks {m : Word} : (!candidates.any (·.covers m)) = true ↔
      ∀ a ∈ candidates, a.covers m = false := by
    simp only [Bool.not_eq_true', List.any_eq_false, Bool.not_eq_true]
  cases first : uncovered.find? fun m => !candidates.any (·.covers m) with
  | none =>
      obtain ⟨m, member, uncoverable⟩ := missing
      exact absurd (lacks.mpr uncoverable) (List.find?_eq_none.mp first m member)
  | some m =>
      obtain ⟨uncoverable, before, after, rfl, earlier⟩ := List.find?_eq_some_iff_append.mp first
      refine ⟨before, m, after, rfl, fun x member => ?_, lacks.mp uncoverable, fun budget => ?_⟩
      · have covered := earlier x member
        rwa [Bool.not_not, List.any_eq_true] at covered
      · rw [irredundant, expansion, clauses_eq, first]

/-- **What a budget means.** If every minterm has a candidate, a covering within a budget fails
if and only if for some `k` the first `k` minterms have more irredundant coverings than it
allows, and the error holds their number for the first such `k` and the budget; otherwise the
answer is that without a budget. A minterm without a candidate is the error whatever the
budget, even after minterms with too many coverings. -/
theorem irredundant_budget (uncovered : List Word) (candidates : List Implicant) :
    ((∀ m ∈ uncovered, ∃ a ∈ candidates, a.covers m = true) → ∀ budget,
      ((∃ size limit, irredundant uncovered candidates (some budget) =
          .error (.coveringBudgetExceeded size limit)) ↔
        ∃ k, 1 ≤ k ∧ k ≤ uncovered.length ∧ budget < irredundantCount uncovered candidates k) ∧
      (∀ size limit, irredundant uncovered candidates (some budget) =
          .error (.coveringBudgetExceeded size limit) →
        limit = budget ∧ ∃ k,
          FirstBeyond budget (irredundantCount uncovered candidates) 0 uncovered.length k ∧
          size = irredundantCount uncovered candidates k) ∧
      ((∀ k, 1 ≤ k → k ≤ uncovered.length → irredundantCount uncovered candidates k ≤ budget) →
        ∃ combinations, irredundant uncovered candidates none = .ok combinations ∧
          irredundant uncovered candidates (some budget) = .ok combinations)) ∧
    ((∃ m ∈ uncovered, ∀ a ∈ candidates, a.covers m = false) →
      ∃ before m after, uncovered = before ++ m :: after ∧
        (∀ x ∈ before, ∃ a ∈ candidates, a.covers x = true) ∧
        (∀ a ∈ candidates, a.covers m = false) ∧
        ∀ budget, irredundant uncovered candidates budget = .error (.uncoverable m)) := by
  refine ⟨fun coverable budget => ?_, irredundant_uncoverable⟩
  have start : Enumerates (([] : List Word).map (clause candidates)) [IndexSet.empty] :=
    enumerates_nil
  have run := expandAll_ok_or_first budget uncovered start
  rw [← irredundant_eq coverable, List.nil_append] at run
  rcases run with ⟨⟨combinations, answered⟩, few⟩ | ⟨k, first, failed⟩
  · refine ⟨?_, ?_, fun _ => ⟨combinations, irredundant_weaken answered (.none _), answered⟩⟩
    · rw [answered]
      refine ⟨?_, ?_⟩
      · rintro ⟨_, _, impossible⟩
        cases impossible
      · rintro ⟨k, after, within, beyond⟩
        exact absurd beyond (Nat.not_lt.mpr (few k after within))
    · intro size limit impossible
      rw [answered] at impossible
      cases impossible
  · refine ⟨?_, ?_, fun few => ?_⟩
    · exact ⟨fun _ => ⟨k, first.after, first.within, first.beyond⟩, fun _ => ⟨_, _, failed⟩⟩
    · intro size limit found
      rw [failed] at found
      cases found
      exact ⟨rfl, k, first, rfl⟩
    · exact absurd first.beyond (Nat.not_lt.mpr (few k first.after first.within))

/-- Two pairs cover the first minterm, two others the second, and only one of the first two the
third: two coverings, then four, then two again. A budget of two fails at the second minterm, one
of four at none of them; a fourth minterm that no pair covers is the error even of a budget of
zero. -/
theorem irredundant_budget_square :
    irredundant [0, 3, 4] [⟨[0, 4], 4, 0⟩, ⟨[0, 1], 1, 0⟩, ⟨[2, 3], 1, 2⟩, ⟨[3, 7], 4, 3⟩]
      (some 2) = .error (.coveringBudgetExceeded 4 2) ∧
    (∃ combinations, irredundant [0, 3, 4]
      [⟨[0, 4], 4, 0⟩, ⟨[0, 1], 1, 0⟩, ⟨[2, 3], 1, 2⟩, ⟨[3, 7], 4, 3⟩]
      (some 4) = .ok combinations) ∧
    irredundant [0, 3, 4, 6] [⟨[0, 4], 4, 0⟩, ⟨[0, 1], 1, 0⟩, ⟨[2, 3], 1, 2⟩, ⟨[3, 7], 4, 3⟩]
      (some 0) = .error (.uncoverable 6) := by
  have covered := (irredundant_budget [0, 3, 4]
    [⟨[0, 4], 4, 0⟩, ⟨[0, 1], 1, 0⟩, ⟨[2, 3], 1, 2⟩, ⟨[3, 7], 4, 3⟩]).1
    (by simp [Implicant.covers])
  have one : irredundantCount [0, 3, 4]
      [⟨[0, 4], 4, 0⟩, ⟨[0, 1], 1, 0⟩, ⟨[2, 3], 1, 2⟩, ⟨[3, 7], 4, 3⟩] 1 = 2 := by decide
  have two : irredundantCount [0, 3, 4]
      [⟨[0, 4], 4, 0⟩, ⟨[0, 1], 1, 0⟩, ⟨[2, 3], 1, 2⟩, ⟨[3, 7], 4, 3⟩] 2 = 4 := by decide
  have three : irredundantCount [0, 3, 4]
      [⟨[0, 4], 4, 0⟩, ⟨[0, 1], 1, 0⟩, ⟨[2, 3], 1, 2⟩, ⟨[3, 7], 4, 3⟩] 3 = 2 := by decide
  refine ⟨?_, ?_, ?_⟩
  · obtain ⟨fails, cause, -⟩ := covered 2
    obtain ⟨size, limit, failed⟩ := fails.mpr ⟨2, by decide, by decide, by omega⟩
    obtain ⟨rfl, k, first, rfl⟩ := cause size limit failed
    -- the first step is within the budget, and none after the second can be the first beyond
    have second : k = 2 := by
      obtain ⟨after, -, beyond, earlier⟩ := first
      rcases Nat.lt_trichotomy k 2 with before | here | later
      · obtain rfl : k = 1 := by omega
        omega
      · exact here
      · have := earlier 2 (by decide) later
        omega
    rw [failed, second, two]
  · obtain ⟨-, -, fits⟩ := covered 4
    obtain ⟨combinations, -, answered⟩ := fits fun k after within => by
      obtain rfl | rfl | rfl : k = 1 ∨ k = 2 ∨ k = 3 := by
        simp only [List.length_cons, List.length_nil] at within
        omega
      all_goals omega
    exact ⟨combinations, answered⟩
  · obtain ⟨before, m, after, order, -, missing, failed⟩ := (irredundant_budget [0, 3, 4, 6]
      [⟨[0, 4], 4, 0⟩, ⟨[0, 1], 1, 0⟩, ⟨[2, 3], 1, 2⟩, ⟨[3, 7], 4, 3⟩]).2
      ⟨6, by decide, by decide⟩
    have listed : m ∈ [0, 3, 4, 6] := order ▸ List.mem_append_right _ List.mem_cons_self
    obtain rfl : m = 6 := by
      simp only [List.mem_cons, List.not_mem_nil, or_false] at listed
      rcases listed with rfl | rfl | rfl | here
      · exact absurd (missing ⟨[0, 4], 4, 0⟩ (by simp)) (by decide)
      · exact absurd (missing ⟨[2, 3], 1, 2⟩ (by simp)) (by decide)
      · exact absurd (missing ⟨[0, 4], 4, 0⟩ (by simp)) (by decide)
      · exact here
    exact failed (some 0)

end Covering

end TwoLevel
