/-
# TwoLevel.Proofs.Failures — why a request has no answer

`Refused` lists the requests without an answer, each with its error: the number of variables
is none or too large, a minterm is out of range, or the covering exceeds a budget under a policy
that does not go on. A refusal is what the run says (`minimizeTraced_eq_error`), and every other
request is answered (`exists_answer_or_refused`): the prime implicants cover all minterms, so that
every minterm the essential ones leave has a candidate; then the expansion fails by its budget
only, the greedy covering never, and both name positions of candidates only.

`StagesFit` collects what the stages of a run take for granted of one another without a check
of their own.
-/
import TwoLevel.Guarded
import TwoLevel.Proofs.Budget
import TwoLevel.Proofs.PrimeCovers

namespace TwoLevel

set_option autoImplicit false

/-! ## The choice -/

/-- A configuration without a way on from its budget, and a selection whose covering
exceeds it. -/
structure Exceeds (config : Config) (s : Selection) (size budget : Nat) : Prop where
  left : s.uncovered ≠ []
  policy : config.policy = .fail
  limit : config.maxCombinations = some budget
  exceeded : Covering.irredundant s.uncovered s.candidates (some budget) =
    .error (.coveringBudgetExceeded size budget)

section Choice

variable {config : Config} {n : Arity} {s : Selection} {choice : Choice} {size budget : Nat}

theorem Choice.make_eq_error (exceeds : Exceeds config s size budget) :
    (Choice.make config n s).outcome = .error (.error (.coveringBudgetExceeded size budget)) := by
  have exceeded := exceeds.exceeded
  rw [← exceeds.limit, Covering.irredundant] at exceeded
  rw [Choice.make, if_neg (by simpa using exceeds.left), Journaled.note_bind]
  simp only [exceeded, exceeds.policy]
  rfl

/-- A covering that is not stopped by its budget is completed by a choice. -/
theorem exists_covered_or_exceeds (config : Config) (n : Arity)
    (coverable : ∀ m ∈ s.uncovered, ∃ a ∈ s.candidates, a.covers m = true) :
    (∃ choice, Covered config n s choice) ∨ ∃ size budget, Exceeds config s size budget := by
  by_cases done : s.uncovered = []
  · exact .inl ⟨_, .nothing done⟩
  · cases listed : Covering.irredundant s.uncovered s.candidates config.maxCombinations with
    | ok combinations =>
        have fits : ∀ c ∈ combinations, c.allBelow s.candidates.length = true :=
          fun c member => IndexSet.allBelow_iff.mpr (Covering.lt_of_irredundant listed member)
        obtain ⟨chosen, best⟩ := exists_choose (n := n) fits
        exact .inl ⟨_, .cheapest done listed best⟩
    | error cause =>
        obtain ⟨size, budget, rfl, limit, -⟩ := Covering.irredundant_error coverable listed
        cases policy : config.policy with
        | fail => exact .inr ⟨size, budget, done, policy, limit, limit ▸ listed⟩
        | greedy =>
            obtain ⟨chosen, taken⟩ := Covering.exists_greedy (n := n) coverable
            exact .inl ⟨_, .greedy done listed policy taken⟩

/-- What was chosen are positions of candidates. -/
theorem Covered.allBelow
    (coverable : ∀ m ∈ s.uncovered, ∃ a ∈ s.candidates, a.covers m = true)
    (covered : Covered config n s choice) :
    choice.chosen.allBelow s.candidates.length = true := by
  rw [IndexSet.allBelow_iff]
  cases covered with
  | nothing done => exact fun i impossible => absurd impossible (Finset.notMem_empty i)
  | cheapest left listed best =>
      exact Covering.lt_of_minimal_covers (choose_spec coverable listed best).1
  | greedy left exceeded policy taken => exact (Covering.greedy_covers taken).1

end Choice

/-! ## The whole run -/

/-- The first entry of the list that is no assignment of `n` variables. -/
def IsFirstOutside (n : Arity) (minterms : List Word) (m : Word) : Prop :=
  ∃ before after, minterms = before ++ m :: after ∧ (∀ x ∈ before, n.admits x = true) ∧
    n.admits m = false

namespace IsFirstOutside

variable {n : Arity} {minterms : List Word} {m : Word}

theorem mem (first : IsFirstOutside n minterms m) : m ∈ minterms := by
  obtain ⟨before, after, rfl, -⟩ := first
  exact List.mem_append_right _ List.mem_cons_self

theorem outside (first : IsFirstOutside n minterms m) : n.admits m = false := by
  obtain ⟨-, -, -, -, outside⟩ := first
  exact outside

theorem le (first : IsFirstOutside n minterms m) : 2 ^ n.size ≤ m.toNat := by
  rw [← Nat.not_lt, ← Arity.admits_iff_lt, first.outside]
  exact Bool.false_ne_true

end IsFirstOutside

/-- All entries are in range, or there is a first one that is not. -/
theorem forall_admits_or_first_outside (n : Arity) (minterms : List Word) :
    (∀ m ∈ minterms, n.admits m = true) ∨ ∃ m, IsFirstOutside n minterms m := by
  cases found : minterms.find? fun m => !n.admits m with
  | some m =>
      obtain ⟨outside, before, after, rfl, earlier⟩ := List.find?_eq_some_iff_append.mp found
      simp only [Bool.not_eq_true', Bool.not_not] at outside earlier
      exact .inr ⟨m, before, after, rfl, earlier, outside⟩
  | none =>
      refine .inl ?_
      simpa only [Bool.not_eq_true', Bool.not_eq_false] using List.find?_eq_none.mp found

/-- The ways a request of `count` variables ends without an answer. -/
inductive Refused (config : Config) (minterms : List Word) : Nat → Error → Prop
  | noVariables : Refused config minterms 0 .noVariables
  | tooManyVariables {count : Nat} (large : 64 < count) :
      Refused config minterms count (.tooManyVariables count)
  | mintermOutOfRange {n : Arity} {m : Word} (some : n.size ≠ 0)
      (first : IsFirstOutside n minterms m) :
      Refused config minterms n.size (.mintermOutOfRange m n.size)
  | budgetExceeded {n : Arity} {size budget : Nat} (some : n.size ≠ 0)
      (inRange : ∀ m ∈ minterms, n.admits m = true) (proper : NotConstant n minterms)
      (exceeds : Exceeds config (selectionFor n minterms) size budget) :
      Refused config minterms n.size (.coveringBudgetExceeded size budget)

section Run

variable {config : Config} {minterms : List Word} {count : Nat} {cause : Error}

theorem minimizeTraced_of_normalize_error (failed : normalize minterms count = .error cause) :
    minimizeTraced config minterms count = .error (.error cause) := by
  rw [minimizeTraced, journal_eq]
  refine Journaled.bind_eq_error ?_
  rw [failed]
  rfl

theorem normalize_first_outside {n : Arity} {m : Word} (some : n.size ≠ 0)
    (first : IsFirstOutside n minterms m) :
    normalize minterms n.size = .error (.mintermOutOfRange m n.size) := by
  obtain ⟨before, after, rfl, inRange, outside⟩ := first
  have known : Arity.ofNat? n.size = .some n := dif_pos n.size_le
  have found : (before ++ m :: after).find? (fun x => !n.admits x) = .some m := by
    refine List.find?_eq_some_iff_append.mpr ⟨by rw [outside]; rfl, before, after, rfl, ?_⟩
    intro x member
    rw [inRange x member]
    rfl
  rw [normalize, if_neg some, known]
  simp only [found]

theorem minimizeProper_eq_error {n : Arity} {ascending : List Word} {size budget : Nat}
    (exceeds : Exceeds config (select (generate n ascending).primes ascending) size budget) :
    (minimizeProper config n ascending).outcome =
      .error (.error (.coveringBudgetExceeded size budget)) := by
  simp only [minimizeProper, Journaled.note_bind]
  exact Journaled.bind_eq_error (Choice.make_eq_error exceeds)

/-- A refusal is what the run says. -/
theorem minimizeTraced_eq_error (refused : Refused config minterms count cause) :
    minimizeTraced config minterms count = .error (.error cause) := by
  cases refused with
  | noVariables => exact minimizeTraced_of_normalize_error rfl
  | tooManyVariables large =>
      have none : Arity.ofNat? count = .none := dif_neg (Nat.not_le.mpr large)
      refine minimizeTraced_of_normalize_error ?_
      rw [normalize, if_neg (by omega), none]
  | mintermOutOfRange some first =>
      exact minimizeTraced_of_normalize_error (normalize_first_outside some first)
  | budgetExceeded some inRange proper exceeds =>
      obtain ⟨notNil, notAll⟩ := (notConstant_iff inRange).mp proper
      rw [minimizeTraced, journal_eq, normalize_eq_ok_iff.mpr ⟨some, inRange, rfl, rfl⟩]
      show (minimizeNormalized config _ (Ascending.ofList minterms)).outcome = _
      rw [minimizeNormalized, if_neg (by simpa using notNil), if_neg notAll]
      exact minimizeProper_eq_error exceeds

/-- Only its budget keeps the minimization of a function from its end. -/
theorem exists_course_or_exceeds (config : Config) {n : Arity} {minterms : List Word}
    (inRange : ∀ m ∈ minterms, n.admits m = true) :
    (∃ r t, Course config n (Ascending.ofList minterms) r t) ∨ NotConstant n minterms ∧
      ∃ size budget, Exceeds config (selectionFor n minterms) size budget := by
  by_cases none : Ascending.ofList minterms = []
  · exact .inl ⟨_, _, .never none⟩
  · by_cases all : (Ascending.ofList minterms).length = 1 <<< n.size
    · exact .inl ⟨_, _, .always none all⟩
    · have coverable := (listsPrimes_ofList inRange).coverable
      rcases exists_covered_or_exceeds config n coverable with ⟨choice, covered⟩ | exceeds
      · exact .inl ⟨_, _, .proper none all covered (covered.allBelow coverable)⟩
      · exact .inr ⟨(notConstant_iff inRange).mpr ⟨none, all⟩, exceeds⟩

/-- Every request is answered or refused. -/
theorem exists_answer_or_refused (config : Config) (minterms : List Word) (count : Nat) :
    (∃ r t, minimizeTraced config minterms count = .ok (r, t)) ∨
      ∃ cause, Refused config minterms count cause := by
  rcases Nat.lt_or_ge 64 count with large | within
  · exact .inr ⟨_, .tooManyVariables large⟩
  · obtain ⟨n, rfl⟩ : ∃ n : Arity, n.size = count := ⟨⟨count, within⟩, rfl⟩
    by_cases none : n.size = 0
    · exact .inr ⟨.noVariables, none ▸ Refused.noVariables⟩
    · rcases forall_admits_or_first_outside n minterms with inRange | ⟨m, first⟩
      · rcases exists_course_or_exceeds config inRange with
          ⟨r, t, course⟩ | ⟨proper, size, budget, exceeds⟩
        · exact .inl ⟨r, t, minimizeTraced_eq_ok_iff.mpr ⟨none, inRange, course⟩⟩
        · exact .inr ⟨_, .budgetExceeded none inRange proper exceeds⟩
      · exact .inr ⟨_, .mintermOutOfRange none first⟩

/-- The refusals are all the failures there are. -/
theorem minimizeTraced_eq_error_iff {failure : Failure} :
    minimizeTraced config minterms count = .error failure ↔
      ∃ cause, failure = .error cause ∧ Refused config minterms count cause := by
  constructor
  · intro failed
    rcases exists_answer_or_refused config minterms count with ⟨r, t, answered⟩ | ⟨cause, refused⟩
    · rw [failed] at answered
      cases answered
    · have said := minimizeTraced_eq_error refused
      rw [failed] at said
      exact ⟨cause, Except.error.inj said, refused⟩
  · rintro ⟨cause, rfl, refused⟩
    exact minimizeTraced_eq_error refused

end Run

/-! ## Which request is refused how -/

section Causes

variable {config : Config} {minterms : List Word} {count : Nat}

theorem minimizeTraced_refuses_iff {cause : Error} :
    minimizeTraced config minterms count = .error (.error cause) ↔
      Refused config minterms count cause := by
  rw [minimizeTraced_eq_error_iff]
  constructor
  · rintro ⟨_, same, refused⟩
    cases same
    exact refused
  · exact fun refused => ⟨cause, rfl, refused⟩

theorem refused_noVariables_iff : Refused config minterms count .noVariables ↔ count = 0 := by
  constructor
  · intro refused
    cases refused with
    | noVariables => rfl
  · rintro rfl
    exact .noVariables

theorem refused_tooManyVariables_iff {k : Nat} :
    Refused config minterms count (.tooManyVariables k) ↔ 64 < count ∧ k = count := by
  constructor
  · intro refused
    cases refused with
    | tooManyVariables large => exact ⟨large, rfl⟩
  · rintro ⟨large, rfl⟩
    exact .tooManyVariables large

/-- The first entry outside, by value. -/
theorem isFirstOutside_iff {n : Arity} {m : Word} :
    IsFirstOutside n minterms m ↔ ∃ before after, minterms = before ++ m :: after ∧
      (∀ x ∈ before, x.toNat < 2 ^ n.size) ∧ 2 ^ n.size ≤ m.toNat := by
  simp only [IsFirstOutside, Arity.admits_iff_lt, ← Nat.not_lt, ← Bool.not_eq_true]

theorem refused_mintermOutOfRange_iff {m : Word} {k : Nat} :
    Refused config minterms count (.mintermOutOfRange m k) ↔
      1 ≤ count ∧ count ≤ 64 ∧ k = count ∧ ∃ before after, minterms = before ++ m :: after ∧
        (∀ x ∈ before, x.toNat < 2 ^ count) ∧ 2 ^ count ≤ m.toNat := by
  constructor
  · intro refused
    cases refused with
    | @mintermOutOfRange n _ some first =>
        exact ⟨Nat.one_le_iff_ne_zero.mpr some, n.size_le, rfl, isFirstOutside_iff.mp first⟩
  · rintro ⟨some, within, rfl, first⟩
    exact .mintermOutOfRange (n := ⟨k, within⟩) (Nat.one_le_iff_ne_zero.mp some)
      (isFirstOutside_iff.mpr first)

theorem refused_budgetExceeded_iff {size budget : Nat} :
    Refused config minterms count (.coveringBudgetExceeded size budget) ↔
      ∃ n : Arity, n.size = count ∧ 1 ≤ count ∧ (∀ m ∈ minterms, m.toNat < 2 ^ count) ∧
        NotConstant n minterms ∧ Exceeds config (selectionFor n minterms) size budget := by
  constructor
  · intro refused
    cases refused with
    | @budgetExceeded n _ _ some inRange proper exceeds =>
        refine ⟨n, rfl, Nat.one_le_iff_ne_zero.mpr some, fun m member => ?_, proper, exceeds⟩
        exact Arity.admits_iff_lt.mp (inRange m member)
  · rintro ⟨n, rfl, some, inRange, proper, exceeds⟩
    refine .budgetExceeded (Nat.one_le_iff_ne_zero.mp some) (fun m member => ?_) proper exceeds
    exact Arity.admits_iff_lt.mpr (inRange m member)

/-- A budget is exceeded by more combinations than it allows. -/
theorem Refused.budget_lt {size budget : Nat}
    (refused : Refused config minterms count (.coveringBudgetExceeded size budget)) :
    budget < size := by
  cases refused with
  | budgetExceeded some inRange proper exceeds =>
      obtain ⟨_, _, same, limit, less⟩ :=
        Covering.irredundant_error (listsPrimes_ofList inRange).coverable exceeds.exceeded
      cases same
      cases limit
      exact less

end Causes

/-! ## The stages fit -/

/-- What the stages of a run take for granted of one another. -/
structure StagesFit (n : Arity) (minterms : List Word) : Prop where
  /-- Generation starts from strictly ascending minterms. -/
  ordered : (Ascending.ofList minterms).Pairwise (· < ·)
  /-- The number of assignments, to which that of the minterms is compared, fits in 128 bits. -/
  assignments : 1 <<< n.size < 2 ^ 128
  /-- There is a bucket for every implicant. -/
  bucket : ∀ (implicants : List Implicant) (a : Implicant),
    a.ones n < (bucketsByOnes n implicants).length
  /-- Every minterm of a prime implicant was counted when its count is looked up. -/
  counted : ∀ a ∈ (generate n (Ascending.ofList minterms)).primes, ∀ m ∈ a.minterms,
    0 < coverage (generate n (Ascending.ofList minterms)).primes m
  /-- Every greedy pick is the candidate at its position. -/
  pick : ∀ offer ∈ (Covering.greedyCovering n (selectionFor n minterms).uncovered
      (selectionFor n minterms).candidates).picks,
    (selectionFor n minterms).candidates[offer.index]? = some offer.implicant
  /-- Every position that is printed belongs to a variable. -/
  named : ∀ bit < n.size, Guarded.variableOfBit (UInt32.ofNat bit) n.size =
    .ok (Variable.ofBit bit n.size)

theorem stagesFit (n : Arity) (minterms : List Word) : StagesFit n minterms where
  ordered := Ascending.pairwise_ofList minterms
  assignments := by
    rw [Nat.one_shiftLeft]
    exact Nat.pow_lt_pow_right (by decide) (Nat.lt_of_le_of_lt n.size_le (by decide))
  bucket implicants a := by
    rw [bucketsByOnes_eq, List.length_map, List.length_range]
    exact Nat.lt_succ_of_le (a.ones_le n)
  counted a member m listed := by
    refine List.countP_pos_iff.mpr ⟨a, member, ?_⟩
    rwa [Implicant.covers, List.contains_iff_mem]
  pick _ picked := ((Covering.greedyCovering_runs _ _ _).mem_picks picked).1
  named bit used := by
    have fits : bit < 2 ^ 32 := (used.trans_le n.size_le).trans (by decide)
    rw [Guarded.variableOfBit, UInt32.toNat_ofNat_of_lt' fits, if_pos used]

/-- **Failures.** A request ends in an error exactly if it has no variables or more than 64,
if a minterm is out of range, of which the first is named, or if the function is not
constant, the policy is to fail and the covering of what its essential implicants leave
exceeds the budget, by the count that is named. Every other request is answered: there is no
other error, and no misuse. In particular no stage hands a later one what that cannot use. -/
theorem minimizeTraced_failures (config : Config) (minterms : List Word) (count : Nat) :
    (minimizeTraced config minterms count = .error (.error .noVariables) ↔ count = 0) ∧
    (∀ k, minimizeTraced config minterms count = .error (.error (.tooManyVariables k)) ↔
      64 < count ∧ k = count) ∧
    (∀ m k, minimizeTraced config minterms count = .error (.error (.mintermOutOfRange m k)) ↔
      1 ≤ count ∧ count ≤ 64 ∧ k = count ∧ ∃ before after, minterms = before ++ m :: after ∧
        (∀ x ∈ before, x.toNat < 2 ^ count) ∧ 2 ^ count ≤ m.toNat) ∧
    (∀ size budget, minimizeTraced config minterms count =
        .error (.error (.coveringBudgetExceeded size budget)) ↔
      ∃ n : Arity, n.size = count ∧ 1 ≤ count ∧ (∀ m ∈ minterms, m.toNat < 2 ^ count) ∧
        NotConstant n minterms ∧ config.policy = .fail ∧ config.maxCombinations = some budget ∧
        (selectionFor n minterms).uncovered ≠ [] ∧
        Covering.irredundant (selectionFor n minterms).uncovered
          (selectionFor n minterms).candidates (some budget) =
            .error (.coveringBudgetExceeded size budget)) ∧
    (∀ size budget, minimizeTraced config minterms count =
        .error (.error (.coveringBudgetExceeded size budget)) → budget < size) ∧
    ((∃ r t, minimizeTraced config minterms count = .ok (r, t)) ∨
      minimizeTraced config minterms count = .error (.error .noVariables) ∨
      (∃ k, minimizeTraced config minterms count = .error (.error (.tooManyVariables k))) ∨
      (∃ m k, minimizeTraced config minterms count = .error (.error (.mintermOutOfRange m k))) ∨
      ∃ size budget, minimizeTraced config minterms count =
        .error (.error (.coveringBudgetExceeded size budget))) ∧
    ∀ n : Arity, n.size = count → StagesFit n minterms := by
  simp only [minimizeTraced_refuses_iff]
  refine ⟨refused_noVariables_iff, fun k => refused_tooManyVariables_iff,
    fun m k => refused_mintermOutOfRange_iff, fun size budget => ?_,
    fun size budget refused => refused.budget_lt, ?_, fun n _ => stagesFit n minterms⟩
  · rw [refused_budgetExceeded_iff]
    refine exists_congr fun n => ?_
    refine and_congr_right fun _ => and_congr_right fun _ => and_congr_right fun _ =>
      and_congr_right fun _ => ?_
    constructor
    · rintro ⟨left, policy, limit, exceeded⟩
      exact ⟨policy, limit, left, exceeded⟩
    · rintro ⟨policy, limit, left, exceeded⟩
      exact ⟨left, policy, limit, exceeded⟩
  · refine (exists_answer_or_refused config minterms count).imp_right ?_
    rintro ⟨cause, refused⟩
    cases refused with
    | noVariables => exact .inl .noVariables
    | tooManyVariables large => exact .inr (.inl ⟨_, .tooManyVariables large⟩)
    | mintermOutOfRange some first =>
        exact .inr (.inr (.inl ⟨_, _, .mintermOutOfRange some first⟩))
    | budgetExceeded some inRange proper exceeds =>
        exact .inr (.inr (.inr ⟨_, _, .budgetExceeded some inRange proper exceeds⟩))

/-- The ring of six minterms has three combinations after a step, more than two; and eight is
the first of two entries that are no assignment of three variables. -/
theorem minimizeTraced_failures_ring :
    (Covering.irredundant (selectionFor ⟨3, by decide⟩ [6, 0, 1, 2, 7, 5, 1]).uncovered
        (selectionFor ⟨3, by decide⟩ [6, 0, 1, 2, 7, 5, 1]).candidates (some 2) =
      .error (.coveringBudgetExceeded 3 2)) ∧
    minimizeTraced {} [1, 8, 9] 3 = .error (.error (.mintermOutOfRange 8 3)) := by
  constructor
  · obtain ⟨-, -, -, exceeds, -⟩ :=
      minimizeTraced_failures ⟨some 2, .fail⟩ [6, 0, 1, 2, 7, 5, 1] 3
    obtain ⟨n, same, -, -, -, -, -, -, exceeded⟩ := (exceeds 3 2).mp rfl
    obtain rfl : n = ⟨3, by decide⟩ := by cases n; cases same; rfl
    exact exceeded
  · obtain ⟨-, -, outside, -⟩ := minimizeTraced_failures {} [1, 8, 9] 3
    have below : ∀ x ∈ ([1] : List Word), x.toNat < 2 ^ 3 :=
      List.forall_mem_singleton.mpr (by decide)
    exact (outside 8 3).mpr ⟨by decide, by decide, rfl, [1], [9], rfl, below, by decide⟩

end TwoLevel
