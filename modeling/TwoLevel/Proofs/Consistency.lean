/-
# TwoLevel.Proofs.Consistency — the trace accounts for the result

A trace holds what six stages produced, and refers from one of its lists into another.
`Trace.Explains` says how these lists and the result hang together: what the last round left
are the prime implicants, the selection splits them, the choice names candidates, and the
cover is what was selected and chosen, in this order.

Nothing is dropped on the way. The prime implicants are pairwise different, so the two sides
of the selection are sublists of them without a common entry, and the cover has no repetition
left to remove (`ListsPrimes.distinct_cover`). The positions a choice names are positions of
candidates on each of its three branches (`Covered.allBelow`), so every one of them
contributes its candidate (`IndexSet.map_some_pick`).
-/
import TwoLevel.Proofs.Failures

namespace TwoLevel

set_option autoImplicit false

/-! ## Traces -/

/-- The first of the cheapest combinations of a trace, by its recorded costs, was chosen. -/
def Trace.ChoseFirstCheapest (t : Trace) : Prop :=
  ∃ (i : Nat) (cost : Cost), t.combinations[i]? = some t.chosen ∧ t.costs[i]? = some cost ∧
    (∀ other ∈ t.costs, ¬other < cost) ∧
    ∀ j < i, ∀ other, t.costs[j]? = some other → cost < other

/-- The trace accounts for a result about the function that is true on `minterms`. -/
structure Trace.Explains (t : Trace) (minterms : List Word) (r : Minimization) : Prop where
  /-- The minterms are those that were asked for, ascending and each once. -/
  minterms_ascending : t.minterms.Pairwise (· < ·)
  mem_minterms : ∀ x, x ∈ t.minterms ↔ x ∈ minterms
  /-- What the last round left are the prime implicants. -/
  rounds_end : t.rounds.getLast? = some t.primes
  /-- Every prime implicant is on exactly one side of the selection, in order. -/
  primes_once : t.primes.Nodup
  essential_sublist : t.essential.Sublist t.primes
  candidates_sublist : t.candidates.Sublist t.primes
  split : ∀ a ∈ t.primes, a ∈ t.essential ↔ a ∉ t.candidates
  /-- What was chosen are positions of candidates. -/
  chosen_lt : ∀ i, t.chosen.contains i = true → i < t.candidates.length
  /-- The cover is the essential implicants and then the candidates at the chosen positions,
  which ascend; there was no repetition to drop. -/
  cover_eq : r.cover.map some =
    t.essential.map some ++ t.chosen.toList.map fun i => t.candidates[i]?
  chosen_ascending : t.chosen.toList.Pairwise (· < ·)
  cover_once : r.cover.Nodup
  nothing_dropped : distinct (t.essential ++ t.chosen.pick t.candidates) =
    t.essential ++ t.chosen.pick t.candidates
  /-- Nothing was chosen where nothing was left. -/
  done : t.uncovered = [] → t.combinations = [] ∧ t.chosen.members = ∅ ∧ t.greedy = false
  /-- An exact choice is the first of the cheapest combinations, all of which have a cost. -/
  cheapest : t.uncovered ≠ [] → t.greedy = false →
    t.combinations ≠ [] ∧ t.ChoseFirstCheapest ∧
      ∀ C ∈ t.combinations, ∀ i, C.contains i = true → i < t.candidates.length
  /-- A greedy choice covers what was left. -/
  covering : t.uncovered ≠ [] → t.greedy = true →
    t.combinations = [] ∧ ∀ m ∈ t.uncovered, ∃ i, t.chosen.contains i = true ∧
      ∃ a, t.candidates[i]? = some a ∧ a.covers m = true

/-- The last report of a generation is that of the prime implicants. -/
theorem Generation.getLast?_reports (g : Generation) : g.reports.getLast? = some g.primes := by
  unfold Generation.primes Generation.reports
  rw [List.getLastD_eq_getLast?, List.getLast?_cons]
  rfl

section Select

variable {implicants : List Implicant} (minterms : List Word) {a : Implicant}

theorem select_essential_sublist : (select implicants minterms).essential.Sublist implicants := by
  rw [select_essential]
  exact (distinct_sublist _).trans List.filter_sublist

theorem select_candidates_sublist :
    (select implicants minterms).candidates.Sublist implicants := by
  rw [select_candidates]
  exact List.filter_sublist

theorem mem_essential_iff (cubes : AllCubes implicants) (member : a ∈ implicants) :
    a ∈ (select implicants minterms).essential ↔
      a ∉ (select implicants minterms).candidates := by
  constructor
  · intro essential candidate
    exact select_disjoint essential candidate
  · intro other
    exact ((mem_select cubes).mp member).resolve_right other

end Select

section Run

variable {config : Config} {n : Arity} {minterms : List Word} {r : Minimization} {t : Trace}

/-- How the answer for a function that is not constant came about. -/
theorem Course.exists_choice_cover (course : Course config n (Ascending.ofList minterms) r t)
    (inRange : ∀ m ∈ minterms, n.admits m = true) (proper : NotConstant n minterms) :
    ∃ choice, Covered config n (selectionFor n minterms) choice ∧
      t = .ofChoice n (Ascending.ofList minterms) choice ∧
      r = .ofCover n ((selectionFor n minterms).cover choice.chosen) := by
  obtain ⟨some, notAll⟩ := (notConstant_iff inRange).mp proper
  cases course with
  | never none => exact absurd none some
  | always _ all => exact absurd all notAll
  | proper _ _ covered _ =>
      refine ⟨_, covered, rfl, ?_⟩
      rw [(listsPrimes_ofList inRange).distinct_cover]
      rfl

section Covered

variable {s : Selection} {choice : Choice}

theorem Covered.eq_nothing (covered : Covered config n s choice) (done : s.uncovered = []) :
    choice = .nothing := by
  cases covered with
  | nothing _ => rfl
  | cheapest left _ _ => exact absurd done left
  | greedy left _ _ _ => exact absurd done left

/-- An exact choice is one by cost, if there is something to choose for. -/
theorem Covered.exact_spec (covered : Covered config n s choice) (left : s.uncovered ≠ [])
    (exact : choice.greedy = false) :
    Covering.irredundant s.uncovered s.candidates config.maxCombinations =
        .ok choice.combinations ∧
      choose n s.candidates choice.combinations = .ok choice.chosen := by
  cases covered with
  | nothing done => exact absurd done left
  | cheapest _ listed best => exact ⟨listed, best⟩
  | greedy _ _ _ _ => cases exact

theorem Covered.greedy_spec (covered : Covered config n s choice)
    (greedily : choice.greedy = true) :
    choice.combinations = [] ∧ Covering.greedy n s.uncovered s.candidates = .ok choice.chosen := by
  cases covered with
  | nothing _ => cases greedily
  | cheapest _ _ _ => cases greedily
  | greedy _ _ _ taken => exact ⟨rfl, taken⟩

end Covered

/-- A choice by cost, as a trace records it. -/
theorem choseFirstCheapest_ofChoice {choice : Choice} (some : choice.combinations ≠ [])
    (best : choose n (selectionFor n minterms).candidates choice.combinations =
      .ok choice.chosen) :
    (Trace.ofChoice n (Ascending.ofList minterms) choice).ChoseFirstCheapest := by
  have first := choose_isFirstBest some best
  obtain ⟨i, here, none, earlier⟩ := IsFirstBest.exists_position ranks_cheaper first
  have costs : (Trace.ofChoice n (Ascending.ofList minterms) choice).costs =
      choice.combinations.map fun C =>
        Cost.ofTerms n (C.pick (selectionFor n minterms).candidates) := rfl
  unfold Trace.ChoseFirstCheapest
  rw [costs]
  refine ⟨i, _, here, by rw [List.getElem?_map, here]; rfl, ?_, ?_⟩
  · intro other listed
    obtain ⟨C, member, rfl⟩ := List.mem_map.mp listed
    exact none C member
  · intro j less other found
    rw [List.getElem?_map, Option.map_eq_some_iff] at found
    obtain ⟨C, there, rfl⟩ := found
    exact earlier j less C there

end Run

/-- **Consistency.** Whatever the configuration, the trace of a function that is not constant
accounts for the result. -/
theorem minimizeTraced_explains (config : Config) (minterms : List Word) (n : Arity)
    (r : Minimization) (t : Trace) (answered : minimizeTraced config minterms n.size = .ok (r, t))
    (proper : NotConstant n minterms) : t.Explains minterms r := by
  obtain ⟨-, inRange, course⟩ := minimizeTraced_eq_ok_iff.mp answered
  obtain ⟨choice, covered, rfl, rfl⟩ := course.exists_choice_cover inRange proper
  have known := listsPrimes_ofList inRange
  have fits : choice.chosen.allBelow (selectionFor n minterms).candidates.length = true :=
    covered.allBelow known.coverable
  refine
    { minterms_ascending := Ascending.pairwise_ofList minterms
      mem_minterms := fun x => Ascending.mem_ofList
      rounds_end := Generation.getLast?_reports _
      primes_once := known.once
      essential_sublist := select_essential_sublist (Ascending.ofList minterms)
      candidates_sublist := select_candidates_sublist (Ascending.ofList minterms)
      split := fun a => mem_essential_iff (Ascending.ofList minterms) known.cubes
      chosen_lt := fun i member =>
        IndexSet.allBelow_iff.mp fits i (IndexSet.mem_members.mpr member)
      cover_eq := ?_
      chosen_ascending := choice.chosen.pairwise_toList
      cover_once := known.cover_nodup
      nothing_dropped := known.distinct_cover
      done := fun done => ?_
      cheapest := fun left exact => ?_
      covering := fun _ greedily => ?_ }
  · show List.map some (_ ++ _) = _
    rw [List.map_append, IndexSet.map_some_pick fits]
    rfl
  · obtain rfl := covered.eq_nothing done
    exact ⟨rfl, rfl, rfl⟩
  · obtain ⟨listed, best⟩ := covered.exact_spec left exact
    have some := Covering.irredundant_ne_nil known.coverable listed
    refine ⟨some, choseFirstCheapest_ofChoice some best, fun C member i within => ?_⟩
    exact Covering.lt_of_irredundant listed member i (IndexSet.mem_members.mpr within)
  · obtain ⟨none, taken⟩ := covered.greedy_spec greedily
    refine ⟨none, fun m listed => ?_⟩
    obtain ⟨i, member, a, found, covers⟩ := (Covering.greedy_covers taken).2 m listed
    exact ⟨i, IndexSet.mem_members.mp member, a, found, covers⟩

/-- Three ways to a result. The six minterms of a ring have two cheapest combinations among
five; with a budget of one they are covered greedily; three corners of a square leave nothing
to cover. -/
theorem minimizeTraced_explains_ring :
    (∃ r t, minimizeTraced {} [6, 0, 1, 2, 7, 5, 1] 3 = .ok (r, t) ∧
      t.greedy = false ∧ t.combinations.length = 5 ∧
      t.Explains [6, 0, 1, 2, 7, 5, 1] r) ∧
    (∃ r t, minimizeTraced ⟨some 1, .greedy⟩ [6, 0, 1, 2, 7, 5, 1] 3 = .ok (r, t) ∧
      t.greedy = true ∧ t.Explains [6, 0, 1, 2, 7, 5, 1] r) ∧
    ∃ r t, minimizeTraced {} [3, 0, 1] 2 = .ok (r, t) ∧
      t.uncovered = [] ∧ t.Explains [3, 0, 1] r := by
  have ring : NotConstant ⟨3, by decide⟩ [6, 0, 1, 2, 7, 5, 1] :=
    ⟨⟨0, by decide⟩, 3, by decide, by decide⟩
  refine ⟨⟨_, _, rfl, rfl, rfl, ?_⟩, ⟨_, _, rfl, rfl, ?_⟩, ⟨_, _, rfl, rfl, ?_⟩⟩
  · exact minimizeTraced_explains {} [6, 0, 1, 2, 7, 5, 1] ⟨3, by decide⟩ _ _ rfl ring
  · exact minimizeTraced_explains ⟨some 1, .greedy⟩ [6, 0, 1, 2, 7, 5, 1] ⟨3, by decide⟩ _ _ rfl
      ring
  · exact minimizeTraced_explains {} [3, 0, 1] ⟨2, by decide⟩ _ _ rfl
      ⟨⟨0, by decide⟩, 2, by decide, by decide⟩

end TwoLevel
