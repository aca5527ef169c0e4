/-
# TwoLevel.Proofs.Transparency — budget and policy never change an exact answer

An answer that was not chosen greedily is the answer of every configuration that allows
as many combinations (`Covered.relax`, `Course.relax`): the expansion goes the same way step
by step, and the policy is not asked. Under the policy to fail every answer is such a one.

Where a budget is exceeded, the greedy policy has an answer all the same. It comes from the
same selection as the one without a budget, so that the two differ in nothing but the choice,
and the choice by cost makes the cover with the fewest terms (`Refused.exists_greedy`). A
request that is refused for another reason is refused whatever the configuration
(`Refused.of_config`).
-/
import TwoLevel.Proofs.Failures
import TwoLevel.Proofs.Optimality

namespace TwoLevel

set_option autoImplicit false

variable {config relaxed : Config} {n : Arity} {minterms : List Word} {count : Nat}

/-! ## Answers within the budget -/

section Relax

variable {s : Selection} {choice : Choice} {r : Minimization} {t : Trace}

theorem Covered.relax (covered : Covered config n s choice) (exact : choice.greedy = false)
    (allows : Covering.Weaker relaxed.maxCombinations config.maxCombinations) :
    Covered relaxed n s choice := by
  cases covered with
  | nothing done => exact .nothing done
  | cheapest left listed best =>
      exact .cheapest left (Covering.irredundant_weaken listed allows) best
  | greedy left exceeded policy taken => cases exact

theorem Course.relax (course : Course config n minterms r t) (exact : t.greedy = false)
    (allows : Covering.Weaker relaxed.maxCombinations config.maxCombinations) :
    Course relaxed n minterms r t := by
  cases course with
  | never none => exact .never none
  | always some all => exact .always some all
  | proper some notAll covered fits => exact .proper some notAll (covered.relax exact allows) fits

/-- Under the policy to fail nothing is chosen greedily. -/
theorem Covered.exact_of_fail (covered : Covered config n s choice)
    (policy : config.policy = .fail) : choice.greedy = false := by
  cases covered with
  | nothing done => rfl
  | cheapest left listed best => rfl
  | greedy left exceeded greedy taken =>
      rw [policy] at greedy
      cases greedy

theorem Course.exact_of_fail (course : Course config n minterms r t)
    (policy : config.policy = .fail) : t.greedy = false := by
  cases course with
  | never none => rfl
  | always some all => rfl
  | proper some notAll covered fits => exact covered.exact_of_fail policy

/-- Only a number of variables that a word can hold has an answer. -/
theorem exists_arity_of_answer (answered : minimizeTraced config minterms count = .ok (r, t)) :
    ∃ n : Arity, n.size = count := by
  rcases Nat.lt_or_ge 64 count with large | within
  · rw [minimizeTraced_eq_error (.tooManyVariables large)] at answered
    cases answered
  · exact ⟨⟨count, within⟩, rfl⟩

/-- An answer under the policy to fail is the answer of every configuration that allows
as many combinations. -/
theorem minimizeTraced_relax (answered : minimizeTraced config minterms count = .ok (r, t))
    (policy : config.policy = .fail)
    (allows : Covering.Weaker relaxed.maxCombinations config.maxCombinations) :
    minimizeTraced relaxed minterms count = .ok (r, t) := by
  obtain ⟨n, rfl⟩ := exists_arity_of_answer answered
  obtain ⟨some, inRange, course⟩ := minimizeTraced_eq_ok_iff.mp answered
  have exact := course.exact_of_fail policy
  exact minimizeTraced_eq_ok_iff.mpr ⟨some, inRange, course.relax exact allows⟩

end Relax

/-! ## Requests beyond the budget -/

section Beyond

variable {choice : Choice}

/-- A choice for what the essential implicants of a function leave completes its minimization. -/
theorem Covered.answer (some : n.size ≠ 0) (inRange : ∀ m ∈ minterms, n.admits m = true)
    (proper : NotConstant n minterms)
    (covered : Covered config n (selectionFor n minterms) choice) :
    minimizeTraced config minterms n.size =
      .ok (.ofCover n ((selectionFor n minterms).cover choice.chosen),
        .ofChoice n (Ascending.ofList minterms) choice) := by
  have known := listsPrimes_ofList inRange
  obtain ⟨notNil, notAll⟩ := (notConstant_iff inRange).mp proper
  refine minimizeTraced_eq_ok_iff.mpr ⟨some, inRange, ?_⟩
  rw [selectionFor, ← known.distinct_cover]
  exact .proper notNil notAll covered (covered.allBelow known.coverable)

/-- Without a limit there is an exact choice. -/
theorem exists_exact {s : Selection}
    (coverable : ∀ m ∈ s.uncovered, ∃ a ∈ s.candidates, a.covers m = true) :
    ∃ choice, Covered ⟨none, .fail⟩ n s choice ∧ choice.greedy = false := by
  rcases exists_covered_or_exceeds ⟨none, .fail⟩ n coverable with
    ⟨choice, covered⟩ | ⟨size, budget, exceeds⟩
  · exact ⟨choice, covered, covered.exact_of_fail rfl⟩
  · cases exceeds.limit

/-- A greedy cover has at least as many terms as an exact one. -/
theorem length_cover_le {exactly greedily : Choice} (inRange : ∀ m ∈ minterms, n.admits m = true)
    (exact : Covered config n (selectionFor n minterms) exactly) (chosen : exactly.greedy = false)
    (greedy : Covered relaxed n (selectionFor n minterms) greedily) :
    ((selectionFor n minterms).cover exactly.chosen).length ≤
      ((selectionFor n minterms).cover greedily.chosen).length := by
  have known := listsPrimes_ofList inRange
  have complete := greedy.completes known.coverable
  have cheapest := known.cost_cover_le exact chosen known.cover_subset fun m listed =>
    (known.mem_iff_exists_cover complete).mp listed
  rcases Prod.Lex.toLex_le_toLex.mp cheapest with fewer | ⟨same, -⟩
  · exact Nat.le_of_lt fewer
  · exact Nat.le_of_eq same

/-- What a budget keeps from its exact answer has a greedy one, from the same selection. -/
theorem Refused.exists_greedy {budget size limit : Nat}
    (refused : Refused ⟨some budget, .fail⟩ minterms count (.coveringBudgetExceeded size limit)) :
    ∃ n exactly greedily, n.size = count ∧ greedily.greedy = true ∧ greedily.combinations = [] ∧
      minimizeTraced ⟨some budget, .greedy⟩ minterms count =
        .ok (.ofCover n ((selectionFor n minterms).cover greedily.chosen),
          .ofChoice n (Ascending.ofList minterms) greedily) ∧
      minimizeTraced ⟨none, .fail⟩ minterms count =
        .ok (.ofCover n ((selectionFor n minterms).cover exactly.chosen),
          .ofChoice n (Ascending.ofList minterms) exactly) ∧
      ((selectionFor n minterms).cover exactly.chosen).length ≤
        ((selectionFor n minterms).cover greedily.chosen).length := by
  cases refused with
  | @budgetExceeded n _ _ some inRange proper exceeds =>
      have known := listsPrimes_ofList inRange
      obtain ⟨chosen, taken⟩ := Covering.exists_greedy (n := n) known.coverable
      have greedy :
          Covered ⟨.some budget, .greedy⟩ n (selectionFor n minterms) ⟨[], chosen, true⟩ :=
        .greedy exceeds.left (exceeds.limit ▸ exceeds.exceeded) rfl taken
      obtain ⟨exactly, exact, notGreedy⟩ := exists_exact (n := n) known.coverable
      exact ⟨n, exactly, _, rfl, rfl, rfl, greedy.answer some inRange proper,
        exact.answer some inRange proper, length_cover_le inRange exact notGreedy greedy⟩

end Beyond

/-! ## Other refusals -/

/-- Only the refusal by the budget looks at the configuration. -/
theorem Refused.of_config {cause : Error} (refused : Refused config minterms count cause)
    (other : ∀ size budget, cause ≠ .coveringBudgetExceeded size budget) :
    Refused relaxed minterms count cause := by
  cases refused with
  | noVariables => exact .noVariables
  | tooManyVariables large => exact .tooManyVariables large
  | mintermOutOfRange some first => exact .mintermOutOfRange some first
  | budgetExceeded some inRange proper exceeds => exact absurd rfl (other _ _)

/-- **Transparency.** An answer under the policy to fail is the answer of every policy with
that or a larger budget. Where the budget is exceeded instead, the greedy policy has an
answer that differs from the one without a budget by its choice alone, and has at least as
many terms. Every other failure is the same whatever the budget and the policy. -/
theorem minimizeTraced_transparent (minterms : List Word) (count : Nat) :
    (∀ limit r t, minimizeTraced ⟨limit, .fail⟩ minterms count = .ok (r, t) →
      ∀ weaker policy, Covering.Weaker weaker limit →
        minimizeTraced ⟨weaker, policy⟩ minterms count = .ok (r, t)) ∧
    (∀ budget size limit, minimizeTraced ⟨some budget, .fail⟩ minterms count =
        .error (.error (.coveringBudgetExceeded size limit)) →
      ∃ r t r' t', minimizeTraced ⟨some budget, .greedy⟩ minterms count = .ok (r, t) ∧
        (∀ policy, minimizeTraced ⟨none, policy⟩ minterms count = .ok (r', t')) ∧
        t.greedy = true ∧ t.combinations = [] ∧
        t.arity = t'.arity ∧ t.minterms = t'.minterms ∧ t.rounds = t'.rounds ∧
        t.primes = t'.primes ∧ t.essential = t'.essential ∧ t.candidates = t'.candidates ∧
        t.uncovered = t'.uncovered ∧ r'.cover.length ≤ r.cover.length) ∧
    (∀ config failure, minimizeTraced config minterms count = .error failure →
      (∀ size budget, failure ≠ .error (.coveringBudgetExceeded size budget)) →
        ∀ other, minimizeTraced other minterms count = .error failure) := by
  refine ⟨fun limit r t answered weaker policy allows => minimizeTraced_relax answered rfl allows,
    fun budget size limit failed => ?_, fun config failure failed notBudget other => ?_⟩
  · obtain ⟨n, exactly, greedily, rfl, isGreedy, none, answered, unlimited, fewer⟩ :=
      (minimizeTraced_refuses_iff.mp failed).exists_greedy
    have always (policy : BudgetPolicy) :
        minimizeTraced ⟨.none, policy⟩ minterms n.size = .ok (_, _) :=
      minimizeTraced_relax unlimited rfl (Covering.Weaker.none _)
    exact ⟨_, _, _, _, answered, always, isGreedy, none, rfl, rfl, rfl, rfl, rfl, rfl, rfl, fewer⟩
  · obtain ⟨cause, rfl, refused⟩ := minimizeTraced_eq_error_iff.mp failed
    refine minimizeTraced_refuses_iff.mpr (refused.of_config fun size budget same => ?_)
    exact notBudget size budget (congrArg Failure.error same)

/-- The ring of six minterms exceeds a budget of two: the greedy answer, which keeps no
combinations, is compared with the one without a budget, which the default budget gives as well. -/
theorem minimizeTraced_transparent_ring :
    (∃ r t r' t', minimizeTraced ⟨some 2, .fail⟩ [6, 0, 1, 2, 7, 5, 1] 3 =
        .error (.error (.coveringBudgetExceeded 3 2)) ∧
      minimizeTraced ⟨some 2, .greedy⟩ [6, 0, 1, 2, 7, 5, 1] 3 = .ok (r, t) ∧
      minimizeTraced ⟨none, .greedy⟩ [6, 0, 1, 2, 7, 5, 1] 3 = .ok (r', t') ∧
      t.greedy = true ∧ t.combinations = [] ∧ t.primes = t'.primes ∧
      r'.cover.length ≤ r.cover.length) ∧
    (∃ r t, minimizeTraced ⟨some 16384, .fail⟩ [6, 0, 1, 2, 7, 5, 1] 3 = .ok (r, t) ∧
      minimizeTraced ⟨none, .greedy⟩ [6, 0, 1, 2, 7, 5, 1] 3 = .ok (r, t)) ∧
    minimizeTraced ⟨some 2, .greedy⟩ [1, 8, 9] 3 = .error (.error (.mintermOutOfRange 8 3)) := by
  obtain ⟨within, beyond, -⟩ := minimizeTraced_transparent [6, 0, 1, 2, 7, 5, 1] 3
  obtain ⟨-, -, failures⟩ := minimizeTraced_transparent [1, 8, 9] 3
  refine ⟨?_, ?_, failures {} _ rfl (fun size budget same => by cases same) _⟩
  · obtain ⟨r, t, r', t', answered, unlimited, greedy, none, -, -, -, primes, -, -, -, fewer⟩ :=
      beyond 2 3 2 rfl
    exact ⟨r, t, r', t', rfl, answered, unlimited .greedy, greedy, none, primes, fewer⟩
  · exact ⟨_, _, rfl, within (some 16384) _ _ rfl none .greedy (Covering.Weaker.none _)⟩

end TwoLevel
