/-
# TwoLevel.Proofs.Course — what a successful minimization did

Everything later said about a result starts from how it came about. `Covered` lists the
ways a configuration may cover what a selection leaves, `Course` the ways a minimization may
end in a result, each with the facts that made it go that way. `make_eq_ok_iff` and
`minimizeTraced_eq_ok_iff` say that these are all the ways there are, so that nothing that
builds on them has to look into the journal again.
-/
import TwoLevel.Minimizer
import TwoLevel.Proofs.Essentials
import TwoLevel.Proofs.GreedyCover

namespace TwoLevel

set_option autoImplicit false

namespace Journaled

variable {α β : Type}

theorem bind_eq_ok_iff {first : Journaled α} {next : α → Journaled β} {result : β} :
    (first >>= next).outcome = .ok result ↔
      ∃ value, first.outcome = .ok value ∧ (next value).outcome = .ok result := by
  rw [outcome_bind]
  cases first.outcome <;> simp [Except.bind]

theorem note_bind (events : List Event) (next : Unit → Journaled β) :
    (note events >>= next).outcome = (next ()).outcome := by
  rw [outcome_bind, outcome_note]
  rfl

theorem note_bind_eq_ok_iff {events : List Event} {next : Unit → Journaled β} {result : β} :
    (note events >>= next).outcome = .ok result ↔ (next ()).outcome = .ok result := by
  rw [note_bind]

/-- After a failure nothing more happens. -/
theorem bind_eq_error {first : Journaled α} {next : α → Journaled β} {failure : Failure}
    (failed : first.outcome = .error failure) : (first >>= next).outcome = .error failure := by
  rw [outcome_bind, failed]
  rfl

theorem pure_eq_ok_iff {value result : α} :
    (pure value : Journaled α).outcome = .ok result ↔ value = result := by
  rw [outcome_pure, Except.ok.injEq]

theorem ofError_eq_ok_iff {answer : Except Error α} {result : α} :
    (ofError answer).outcome = .ok result ↔ answer = .ok result := by
  cases answer <;> simp [ofError]

theorem ofMisuse_eq_ok_iff {answer : Except Misuse α} {result : α} :
    (ofMisuse answer).outcome = .ok result ↔ answer = .ok result := by
  cases answer <;> simp [ofMisuse]

end Journaled

/-! ## The choice -/

/-- The ways a configuration covers what a selection leaves. -/
inductive Covered (config : Config) (n : Arity) (s : Selection) : Choice → Prop
  | nothing (done : s.uncovered = []) : Covered config n s Choice.nothing
  | cheapest {combinations : List IndexSet} {chosen : IndexSet} (left : s.uncovered ≠ [])
      (listed : Covering.irredundant s.uncovered s.candidates config.maxCombinations =
        .ok combinations)
      (best : choose n s.candidates combinations = .ok chosen) :
      Covered config n s ⟨combinations, chosen, false⟩
  | greedy {size budget : Nat} {chosen : IndexSet} (left : s.uncovered ≠ [])
      (exceeded : Covering.irredundant s.uncovered s.candidates config.maxCombinations =
        .error (.coveringBudgetExceeded size budget))
      (policy : config.policy = .greedy)
      (taken : Covering.greedy n s.uncovered s.candidates = .ok chosen) :
      Covered config n s ⟨[], chosen, true⟩

section Covered

variable {config : Config} {n : Arity} {s : Selection} {choice : Choice}

/-- A choice by cost is one of the irredundant combinations, and none of these is cheaper. -/
theorem choose_spec {combinations : List IndexSet} {chosen : IndexSet}
    (coverable : ∀ m ∈ s.uncovered, ∃ a ∈ s.candidates, a.covers m = true)
    (listed : Covering.irredundant s.uncovered s.candidates config.maxCombinations =
      .ok combinations)
    (best : choose n s.candidates combinations = .ok chosen) :
    Minimal (Covering.Covers s.uncovered s.candidates) chosen.members ∧
      ∀ other : IndexSet, Minimal (Covering.Covers s.uncovered s.candidates) other.members →
        ¬Cheaper n s.candidates other chosen := by
  obtain ⟨-, exact⟩ := Covering.irredundant_ok listed
  have some : combinations ≠ [] := Covering.irredundant_ne_nil coverable listed
  have first := choose_isFirstBest some best
  refine ⟨(exact _).mp (List.mem_map_of_mem first.mem), fun other minimal => ?_⟩
  obtain ⟨same, member, members⟩ := List.mem_map.mp ((exact _).mpr minimal)
  have kept := first.not_better ranks_cheaper same member
  rwa [Cheaper, IndexSet.pick_eq_of_members members] at kept

/-- However the choice was made, it covers what was left. -/
theorem Covered.completes (coverable : ∀ m ∈ s.uncovered, ∃ a ∈ s.candidates, a.covers m = true)
    (covered : Covered config n s choice) : s.Completes choice.chosen := by
  cases covered with
  | nothing done =>
      intro m listed
      rw [done] at listed
      cases listed
  | cheapest left listed best => exact (choose_spec coverable listed best).1.prop
  | greedy left exceeded policy taken => exact (Covering.greedy_covers taken).2

end Covered

namespace Choice

variable {config : Config} {n : Arity} {s : Selection} {choice : Choice}

theorem ofCombinations_eq_ok_iff {combinations : List IndexSet} :
    (ofCombinations n s combinations).outcome = .ok choice ↔
      ∃ chosen, choose n s.candidates combinations = .ok chosen ∧
        ⟨combinations, chosen, false⟩ = choice := by
  rw [ofCombinations, Journaled.bind_eq_ok_iff, choose]
  simp only [Journaled.ofMisuse_eq_ok_iff]
  cases Priced.all n s.candidates combinations with
  | error misuse => simp
  | ok priced =>
      cases found : Priced.cheapest? priced with
      | none => simp [found]
      | some best => simp [found, Journaled.note_bind_eq_ok_iff]

theorem ofGreedy_eq_ok_iff :
    (ofGreedy n s).outcome = .ok choice ↔
      ∃ chosen, Covering.greedy n s.uncovered s.candidates = .ok chosen ∧
        ⟨[], chosen, true⟩ = choice := by
  rw [ofGreedy, Journaled.note_bind_eq_ok_iff, Journaled.bind_eq_ok_iff]
  simp only [Journaled.ofError_eq_ok_iff, Journaled.pure_eq_ok_iff, Covering.greedy]

/-- A choice is made in one of these ways, and in each of them one is made. -/
theorem make_eq_ok_iff : (make config n s).outcome = .ok choice ↔ Covered config n s choice := by
  constructor
  · intro made
    rw [make] at made
    split at made
    · rename_i done
      obtain rfl := Journaled.pure_eq_ok_iff.mp made
      exact .nothing (List.isEmpty_iff.mp done)
    · rename_i left
      have left : s.uncovered ≠ [] := fun done => left (List.isEmpty_iff.mpr done)
      rw [Journaled.note_bind_eq_ok_iff] at made
      split at made
      · rename_i combinations _ listed
        obtain ⟨chosen, best, rfl⟩ := ofCombinations_eq_ok_iff.mp made
        exact .cheapest left listed best
      · rename_i size budget exceeded policy
        rw [Journaled.note_bind_eq_ok_iff] at made
        obtain ⟨chosen, taken, rfl⟩ := ofGreedy_eq_ok_iff.mp made
        exact .greedy left exceeded policy taken
      · cases made
  · intro covered
    rw [make]
    cases covered with
    | nothing done => rw [done]; rfl
    | cheapest left listed best =>
        rw [if_neg (by simpa using left), Journaled.note_bind_eq_ok_iff]
        rw [Covering.irredundant] at listed
        simp only [listed]
        exact ofCombinations_eq_ok_iff.mpr ⟨_, best, rfl⟩
    | greedy left exceeded policy taken =>
        rw [if_neg (by simpa using left), Journaled.note_bind_eq_ok_iff]
        rw [Covering.irredundant] at exceeded
        simp only [exceeded, policy, Journaled.note_bind_eq_ok_iff]
        exact ofGreedy_eq_ok_iff.mpr ⟨_, taken, rfl⟩

end Choice

/-! ## The whole run -/

theorem normalize_eq_ok_iff {minterms ascending : List Word} {n arity : Arity} :
    normalize minterms n.size = .ok (arity, ascending) ↔
      n.size ≠ 0 ∧ (∀ m ∈ minterms, n.admits m = true) ∧ n = arity ∧
        Ascending.ofList minterms = ascending := by
  have known : Arity.ofNat? n.size = some n := dif_pos n.size_le
  by_cases none : n.size = 0
  · simp [normalize, none]
  · simp only [normalize, none, known, if_false]
    split
    · rename_i m found
      have outside := List.find?_some found
      have listed := List.mem_of_find?_eq_some found
      simp only [reduceCtorEq, false_iff, not_and]
      intro _ inRange
      rw [inRange m listed] at outside
      cases outside
    · rename_i found
      have inRange := List.find?_eq_none.mp found
      simp only [Bool.not_eq_true', Bool.not_eq_false] at inRange
      rw [Except.ok.injEq, Prod.mk.injEq]
      exact ⟨fun same => ⟨none, inRange, same⟩, fun all => all.2.2⟩

/-- The result whose cover is given. -/
def Minimization.ofCover (n : Arity) (cover : List Implicant) : Minimization :=
  ⟨formatCover cover n.size, cover⟩

/-- What is recorded of a minimization of a function that is not constant. -/
def Trace.ofChoice (n : Arity) (minterms : List Word) (choice : Choice) : Trace :=
  let primes := (generate n minterms).primes
  let s := select primes minterms
  { arity := n, minterms := minterms, rounds := (generate n minterms).reports, primes := primes,
    essential := s.essential, candidates := s.candidates, uncovered := s.uncovered,
    combinations := choice.combinations, chosen := choice.chosen, greedy := choice.greedy }

/-- The ways a minimization of the ascending `minterms` ends in a result. -/
inductive Course (config : Config) (n : Arity) (minterms : List Word) : Minimization → Trace → Prop
  | never (none : minterms = []) :
      Course config n minterms (.constant false) { arity := n, minterms := minterms }
  | always (some : minterms ≠ []) (all : minterms.length = 1 <<< n.size) :
      Course config n minterms (.constant true) { arity := n, minterms := minterms }
  | proper {choice : Choice} (some : minterms ≠ []) (notAll : minterms.length ≠ 1 <<< n.size)
      (covered : Covered config n (select (generate n minterms).primes minterms) choice)
      (fits : choice.chosen.allBelow
        (select (generate n minterms).primes minterms).candidates.length = true) :
      Course config n minterms
        (.ofCover n
          (distinct ((select (generate n minterms).primes minterms).cover choice.chosen)))
        (.ofChoice n minterms choice)

theorem assemble_eq_ok_iff {s : Selection} {chosen : IndexSet} {cover : List Implicant} :
    (assemble s chosen).outcome = .ok cover ↔
      chosen.allBelow s.candidates.length = true ∧ distinct (s.cover chosen) = cover := by
  rw [assemble]
  split
  · rename_i fits
    simp [fits, Journaled.note_bind_eq_ok_iff, Selection.cover]
  · rename_i outside
    simp [outside, Journaled.ofMisuse_eq_ok_iff]

theorem minimizeProper_eq_ok_iff {config : Config} {n : Arity} {minterms : List Word}
    {r : Minimization} {t : Trace} :
    (minimizeProper config n minterms).outcome = .ok (r, t) ↔
      ∃ choice, Covered config n (select (generate n minterms).primes minterms) choice ∧
        choice.chosen.allBelow
          (select (generate n minterms).primes minterms).candidates.length = true ∧
        .ofCover n (distinct
          ((select (generate n minterms).primes minterms).cover choice.chosen)) = r ∧
        .ofChoice n minterms choice = t := by
  simp only [minimizeProper, Journaled.note_bind_eq_ok_iff]
  simp only [Journaled.bind_eq_ok_iff, Choice.make_eq_ok_iff, assemble_eq_ok_iff,
    Journaled.outcome_note, Journaled.pure_eq_ok_iff, Prod.mk.injEq]
  constructor
  · rintro ⟨choice, covered, cover, ⟨fits, rfl⟩, -, -, rfl, rfl⟩
    exact ⟨choice, covered, fits, rfl, rfl⟩
  · rintro ⟨choice, covered, fits, rfl, rfl⟩
    exact ⟨choice, covered, _, ⟨fits, rfl⟩, (), trivial, rfl, rfl⟩

/-- The part of a run after the normalization. -/
def minimizeNormalized (config : Config) (n : Arity) (ascending : List Word) :
    Journaled (Minimization × Trace) :=
  if ascending.isEmpty then
    pure (Minimization.constant false, { arity := n, minterms := ascending })
  else if ascending.length = 1 <<< n.size then
    pure (Minimization.constant true, { arity := n, minterms := ascending })
  else minimizeProper config n ascending

theorem journal_eq (config : Config) (minterms : List Word) (count : Nat) :
    journal config minterms count = (do
      let (n, ascending) ← Journaled.ofError (normalize minterms count)
      Journaled.note [.started n.size ascending]
      minimizeNormalized config n ascending) :=
  rfl

theorem minimizeNormalized_eq_ok_iff {config : Config} {n : Arity} {ascending : List Word}
    {r : Minimization} {t : Trace} :
    (minimizeNormalized config n ascending).outcome = .ok (r, t) ↔
      Course config n ascending r t := by
  rw [minimizeNormalized]
  constructor
  · intro ended
    split at ended
    · rename_i none
      obtain ⟨rfl, rfl⟩ := Prod.mk.inj (Journaled.pure_eq_ok_iff.mp ended)
      exact .never (List.isEmpty_iff.mp none)
    · rename_i some
      have some : ascending ≠ [] := fun none => some (List.isEmpty_iff.mpr none)
      split at ended
      · rename_i all
        obtain ⟨rfl, rfl⟩ := Prod.mk.inj (Journaled.pure_eq_ok_iff.mp ended)
        exact .always some all
      · rename_i notAll
        obtain ⟨choice, covered, fits, rfl, rfl⟩ := minimizeProper_eq_ok_iff.mp ended
        exact .proper some notAll covered fits
  · rintro (none | ⟨some, all⟩ | ⟨some, notAll, covered, fits⟩)
    · rw [if_pos (List.isEmpty_iff.mpr none), Journaled.pure_eq_ok_iff]
    · rw [if_neg (by simpa using some), if_pos all, Journaled.pure_eq_ok_iff]
    · rw [if_neg (by simpa using some), if_neg notAll, minimizeProper_eq_ok_iff]
      exact ⟨_, covered, fits, rfl, rfl⟩

/-- A run ends in a result in one of these ways, and in each of them it ends so. -/
theorem minimizeTraced_eq_ok_iff {config : Config} {minterms : List Word} {n : Arity}
    {r : Minimization} {t : Trace} :
    minimizeTraced config minterms n.size = .ok (r, t) ↔
      n.size ≠ 0 ∧ (∀ m ∈ minterms, n.admits m = true) ∧
        Course config n (Ascending.ofList minterms) r t := by
  simp only [minimizeTraced, journal_eq, Journaled.bind_eq_ok_iff, Journaled.ofError_eq_ok_iff,
    Prod.exists, normalize_eq_ok_iff, minimizeNormalized_eq_ok_iff]
  constructor
  · rintro ⟨arity, ascending, ⟨positive, inRange, rfl, rfl⟩, -, -, ended⟩
    exact ⟨positive, inRange, ended⟩
  · rintro ⟨positive, inRange, ended⟩
    exact ⟨n, _, ⟨positive, inRange, rfl, rfl⟩, (), rfl, ended⟩

end TwoLevel
