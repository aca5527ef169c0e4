/-
# TwoLevel.Proofs.InputOrder — a minimization depends on the set of its minterms

Two lists with the same entries have the same ascending list (`Ascending.ofList_congr`), and
nothing after the normalization looks at the list that was given. So the whole journal of a
request, every report in it included, is that of any other list of the same minterms
(`journal_congr`).

Only the check of the range goes through the given list in order. It passes both lists or
neither (`normalize_congr`), but the first entry out of range, which it names, need not be the
same one. It comes before the first report, so the reports are the same in any case
(`journal_events_congr`).
-/
import TwoLevel.Proofs.Failures

namespace TwoLevel

set_option autoImplicit false

/-- The ascending list of a set does not depend on how the set was listed. -/
theorem Ascending.ofList_congr {xs ys : List Word} (same : ∀ x, x ∈ xs ↔ x ∈ ys) :
    ofList xs = ofList ys := by
  refine eq_of_mem_iff (pairwise_ofList xs) (pairwise_ofList ys) fun x => ?_
  rw [mem_ofList, mem_ofList, same]

section Congr

variable {minterms others : List Word} {count : Nat}

/-- Two lists of the same minterms are normalized alike, or each has an entry out of range. -/
theorem normalize_congr (same : ∀ x, x ∈ minterms ↔ x ∈ others) (count : Nat) :
    normalize minterms count = normalize others count ∨
      ∃ (n : Arity) (m m' : Word), n.size = count ∧ count ≠ 0 ∧
        IsFirstOutside n minterms m ∧ IsFirstOutside n others m' := by
  by_cases none : count = 0
  · exact .inl (by rw [normalize, normalize, if_pos none, if_pos none])
  · rcases Nat.lt_or_ge 64 count with large | within
    · have noArity : Arity.ofNat? count = .none := dif_neg (Nat.not_le.mpr large)
      exact .inl (by rw [normalize, normalize, if_neg none, if_neg none, noArity])
    · obtain ⟨n, rfl⟩ : ∃ n : Arity, n.size = count := ⟨⟨count, within⟩, rfl⟩
      rcases forall_admits_or_first_outside n minterms with inRange | ⟨m, first⟩
      · have inRange' : ∀ m ∈ others, n.admits m = true := fun m member =>
          inRange m ((same m).mpr member)
        have list := normalize_eq_ok_iff.mpr ⟨none, inRange, rfl, rfl⟩
        have other := normalize_eq_ok_iff.mpr ⟨none, inRange', rfl, rfl⟩
        exact .inl (by rw [list, other, Ascending.ofList_congr same])
      · -- the entry that the one list names is in the other one, too
        rcases forall_admits_or_first_outside n others with inRange | ⟨m', first'⟩
        · have listed := (same m).mp first.mem
          exact absurd (inRange m listed) (by simp [first.outside])
        · exact .inr ⟨n, m, m', rfl, none, first, first'⟩

/-- What is normalized alike is minimized alike, with the same reports. -/
theorem journal_congr (config : Config)
    (same : normalize minterms count = normalize others count) :
    journal config minterms count = journal config others count := by
  rw [journal_eq, journal_eq, same]

/-- Nothing is reported of what has no normal form. -/
theorem journal_events_of_normalize_error {config : Config} {cause : Error}
    (failed : normalize minterms count = .error cause) :
    (journal config minterms count).events = [] := by
  rw [journal_eq, failed]
  rfl

/-- The reports are the same for two lists of the same minterms, even if these are refused. -/
theorem journal_events_congr (config : Config) (same : ∀ x, x ∈ minterms ↔ x ∈ others)
    (count : Nat) :
    (journal config minterms count).events = (journal config others count).events := by
  rcases normalize_congr same count with alike | ⟨n, m, m', rfl, some, first, first'⟩
  · rw [journal_congr config alike]
  · rw [journal_events_of_normalize_error (normalize_first_outside some first),
      journal_events_of_normalize_error (normalize_first_outside some first')]

end Congr

/-- **Order and repetition.** Two lists with the same entries have the same result and the
same trace, or fail alike, whatever the configuration. Only if there are entries out of range
the two failures may differ, and then in nothing but which of these entries they name. -/
theorem minimizeTraced_congr (config : Config) (minterms others : List Word) (count : Nat)
    (same : ∀ x, x ∈ minterms ↔ x ∈ others) :
    minimizeTraced config minterms count = minimizeTraced config others count ∨
      ∃ m m', (m ∈ minterms ∧ 2 ^ count ≤ m.toNat) ∧ (m' ∈ others ∧ 2 ^ count ≤ m'.toNat) ∧
        minimizeTraced config minterms count = .error (.error (.mintermOutOfRange m count)) ∧
        minimizeTraced config others count = .error (.error (.mintermOutOfRange m' count)) := by
  rcases normalize_congr same count with alike | ⟨n, m, m', rfl, some, first, first'⟩
  · exact .inl (congrArg Journaled.outcome (journal_congr config alike))
  · refine .inr ⟨m, m', ⟨first.mem, first.le⟩, ⟨first'.mem, first'.le⟩, ?_, ?_⟩
    · exact minimizeTraced_eq_error (.mintermOutOfRange some first)
    · exact minimizeTraced_eq_error (.mintermOutOfRange some first')

/-- Seven entries of a ring of six minterms, and the six in order; and two lists of three
entries, of which each names its own first one out of range. -/
theorem minimizeTraced_congr_ring :
    (∃ r t, minimizeTraced {} [6, 0, 1, 2, 7, 5, 1] 3 = .ok (r, t) ∧
      minimizeTraced {} [0, 1, 2, 5, 6, 7] 3 = .ok (r, t)) ∧
    minimizeTraced {} [1, 8, 9] 3 = .error (.error (.mintermOutOfRange 8 3)) ∧
    minimizeTraced {} [9, 8, 1, 9] 3 = .error (.error (.mintermOutOfRange 9 3)) := by
  constructor
  · rcases minimizeTraced_congr {} [6, 0, 1, 2, 7, 5, 1] [0, 1, 2, 5, 6, 7] 3
      (fun x => by simp only [List.mem_cons]; grind) with alike | ⟨m, m', -, -, refused, -⟩
    · exact ⟨_, _, rfl, alike ▸ rfl⟩
    · cases refused
  · rcases minimizeTraced_congr {} [1, 8, 9] [9, 8, 1, 9] 3
      (fun x => by simp only [List.mem_cons]; grind) with alike | ⟨m, m', -, -, first, first'⟩
    · cases alike
    · exact ⟨first.trans (by cases first; rfl), first'.trans (by cases first'; rfl)⟩

end TwoLevel
