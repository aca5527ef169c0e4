/-
# TwoLevel.Proofs.GreedyBound — how many picks a greedy covering needs at most

Compare a greedy covering with any set of candidates that covers the same minterms. A member of that
set owes the harmonic number of what it covers of the remaining minterms (`dues`). A pick covers at
least as much as any of them, so for each minterm that a member loses to the pick its debt falls by
at least the pick's share of one, the reciprocal of its gain (`sub_le_mul_harmonic`). As the set
covers all that the pick takes away, every pick lowers the debt by one or more
(`IsNext.one_add_dues_le`), and there are at most as many picks as the debt at the start
(`Runs.length_picks_le`). No member starts with more than the harmonic number of the largest gain
(`greedy_le_harmonic`).
-/
import Mathlib.Algebra.BigOperators.Ring.Finset
import Mathlib.Algebra.Order.BigOperators.Group.Finset
import Mathlib.Algebra.Order.Field.Basic
import Mathlib.Algebra.Order.Ring.Rat
import Mathlib.NumberTheory.Harmonic.Defs
import Mathlib.Order.Lattice.Nat
import Mathlib.Tactic.Positivity
import Mathlib.Tactic.Ring
import TwoLevel.Proofs.GreedyCover

namespace TwoLevel

set_option autoImplicit false

namespace Covering

variable {n : Arity} {candidates : List Implicant} {chosen : IndexSet} {remaining : List Word}
  {T : Finset Nat}

/-! ## Harmonic numbers -/

theorem monotone_harmonic : Monotone harmonic := by
  refine monotone_nat_of_le_succ fun k => ?_
  rw [harmonic_succ]
  exact le_add_of_nonneg_right (by positivity)

/-- Every term up to `g` is at least the reciprocal of `g`. -/
theorem sub_le_mul_harmonic {v u g : Nat} (less : v ≤ u) (bound : u ≤ g) :
    (u - v : ℚ) ≤ g * (harmonic u - harmonic v) := by
  induction u, less using Nat.le_induction with
  | base => simp
  | succ u less ih =>
      have positive : (0 : ℚ) < ((u + 1 : Nat) : ℚ) := by positivity
      have term : (1 : ℚ) ≤ g * ((u + 1 : Nat) : ℚ)⁻¹ := by
        rw [← div_eq_mul_inv, one_le_div positive]
        exact_mod_cast bound
      calc ((u + 1 : Nat) - v : ℚ) = (u - v) + 1 := by push_cast; ring
        _ ≤ g * (harmonic u - harmonic v) + g * ((u + 1 : Nat) : ℚ)⁻¹ :=
          add_le_add (ih (by omega)) term
        _ = g * (harmonic (u + 1) - harmonic v) := by rw [harmonic_succ]; ring

/-! ## What a set of candidates covers -/

/-- How many of the remaining minterms the candidate at a position covers. -/
def gainAt (candidates : List Implicant) (remaining : List Word) (i : Nat) : Nat :=
  remaining.countP fun m => candidates[i]?.any (·.covers m)

theorem gainAt_eq_gain {i : Nat} {a : Implicant} (found : candidates[i]? = some a) :
    gainAt candidates remaining i = gain remaining a := by
  simp only [gainAt, found, Option.any_some, gain]

theorem gainAt_eq_zero {i : Nat} (missing : candidates[i]? = none) :
    gainAt candidates remaining i = 0 := by
  simp [gainAt, missing]

/-- What is taken away and what is left. -/
theorem gainAt_filter_add (p : Word → Bool) (i : Nat) :
    gainAt candidates (remaining.filter p) i + gainAt candidates (remaining.filter (!p ·)) i =
      gainAt candidates remaining i :=
  (List.countP_eq_countP_filter_add _ _ _).symm

/-- The most minterms that one candidate covers. -/
def largestGain (candidates : List Implicant) (uncovered : List Word) : Nat :=
  candidates.toFinset.sup (gain uncovered)

theorem gainAt_le_largestGain (i : Nat) :
    gainAt candidates remaining i ≤ largestGain candidates remaining := by
  cases found : candidates[i]? with
  | none => exact gainAt_eq_zero found ▸ Nat.zero_le _
  | some a =>
      rw [gainAt_eq_gain found]
      exact Finset.le_sup (List.mem_toFinset.mpr (List.mem_of_getElem? found))

/-- A covering covers at least as many minterms as there are, each counted once for every member
that covers it. -/
theorem Covers.length_le_sum (covers : Covers remaining candidates T) :
    remaining.length ≤ ∑ i ∈ T, gainAt candidates remaining i := by
  induction remaining with
  | nil => exact Nat.zero_le _
  | cons m rest ih =>
      obtain ⟨i, member, a, found, here⟩ := covers m List.mem_cons_self
      have later := ih fun x listed => covers x (List.mem_cons_of_mem m listed)
      have once : 1 ≤ ∑ j ∈ T, if candidates[j]?.any (·.covers m) then 1 else 0 := by
        refine le_trans ?_ (Finset.single_le_sum (fun _ _ => Nat.zero_le _) member)
        rw [found, Option.any_some, here, if_pos rfl]
      calc (m :: rest).length = rest.length + 1 := rfl
        _ ≤ ∑ j ∈ T, gainAt candidates rest j +
              ∑ j ∈ T, if candidates[j]?.any (·.covers m) then 1 else 0 := Nat.add_le_add later once
        _ = ∑ j ∈ T, gainAt candidates (m :: rest) j := by
          rw [← Finset.sum_add_distrib]
          exact Finset.sum_congr rfl fun j _ => List.countP_cons.symm

theorem Covers.filter (covers : Covers remaining candidates T) (p : Word → Bool) :
    Covers (remaining.filter p) candidates T :=
  fun m listed => covers m (List.mem_of_mem_filter listed)

/-! ## The debt -/

/-- What the members of a set owe for the minterms that remain. -/
def dues (candidates : List Implicant) (T : Finset Nat) (remaining : List Word) : ℚ :=
  ∑ i ∈ T, harmonic (gainAt candidates remaining i)

theorem dues_nonneg : 0 ≤ dues candidates T remaining :=
  Finset.sum_nonneg fun _ _ => monotone_harmonic (Nat.zero_le _)

theorem dues_le : dues candidates T remaining ≤
    harmonic (largestGain candidates remaining) * T.card := by
  rw [mul_comm, ← nsmul_eq_mul]
  exact Finset.sum_le_card_nsmul T _ _ fun i _ => monotone_harmonic (gainAt_le_largestGain i)

/-- No candidate covers more than the pick, as those that are chosen cover nothing. -/
theorem IsNext.gainAt_le {pick : Offer} (next : IsNext n candidates chosen.members remaining pick)
    (spent : Spent candidates chosen remaining) (i : Nat) :
    gainAt candidates remaining i ≤ pick.gain := by
  cases found : candidates[i]? with
  | none => exact gainAt_eq_zero found ▸ Nat.zero_le _
  | some a =>
      rw [gainAt_eq_gain found]
      by_cases taken : i ∈ chosen.members
      · have nothing : gain remaining a = 0 :=
          List.countP_eq_zero.mpr fun m listed =>
            Bool.not_eq_true _ ▸ spent i taken a found m listed
        exact nothing ▸ Nat.zero_le _
      · by_cases same : i = pick.index
        · obtain rfl : a = pick.implicant :=
            Option.some.inj (found.symm.trans (same ▸ next.candidate))
          exact next.gain_eq.ge
        · have worse := next.best i a found taken same
          omega

/-- A pick is paid. -/
theorem IsNext.one_add_dues_le {pick : Offer}
    (next : IsNext n candidates chosen.members remaining pick)
    (spent : Spent candidates chosen remaining) (covers : Covers remaining candidates T) :
    1 + dues candidates T (remaining.filter fun m => !pick.implicant.covers m) ≤
      dues candidates T remaining := by
  let rest := remaining.filter fun m => !pick.implicant.covers m
  let lost := remaining.filter pick.implicant.covers
  have share (i : Nat) : (gainAt candidates lost i : ℚ) ≤
      pick.gain * (harmonic (gainAt candidates remaining i) -
        harmonic (gainAt candidates rest i)) := by
    have parts : gainAt candidates lost i + gainAt candidates rest i =
      gainAt candidates remaining i := gainAt_filter_add _ i
    have fewer : gainAt candidates rest i ≤ gainAt candidates remaining i := by omega
    refine le_trans (le_of_eq ?_) (sub_le_mul_harmonic fewer (next.gainAt_le spent i))
    rw [← parts, Nat.cast_add, add_sub_cancel_right]
  have all : pick.gain ≤ ∑ i ∈ T, gainAt candidates lost i := by
    refine le_trans (le_of_eq ?_) (covers.filter pick.implicant.covers).length_le_sum
    rw [next.gain_eq, gain, List.countP_eq_length_filter]
  have positive : (0 : ℚ) < pick.gain := Nat.cast_pos.mpr next.positive
  have paid : (pick.gain : ℚ) * 1 ≤
      pick.gain * (dues candidates T remaining - dues candidates T rest) := by
    calc (pick.gain : ℚ) * 1 = (pick.gain : ℚ) := mul_one _
      _ ≤ ((∑ i ∈ T, gainAt candidates lost i : Nat) : ℚ) := Nat.cast_le.mpr all
      _ = ∑ i ∈ T, (gainAt candidates lost i : ℚ) := Nat.cast_sum _ _
      _ ≤ ∑ i ∈ T, pick.gain * (harmonic (gainAt candidates remaining i) -
            harmonic (gainAt candidates rest i)) := Finset.sum_le_sum fun i _ => share i
      _ = pick.gain * (dues candidates T remaining - dues candidates T rest) := by
        rw [← Finset.mul_sum, Finset.sum_sub_distrib, dues, dues]
  exact le_sub_iff_add_le.mp (le_of_mul_le_mul_left paid positive)

/-- All picks are paid. -/
theorem Runs.length_picks_le {course : GreedyCovering}
    (run : Runs n candidates chosen remaining course) (spent : Spent candidates chosen remaining)
    (covers : Covers remaining candidates T) :
    (course.picks.length : ℚ) ≤ dues candidates T remaining := by
  induction run with
  | covered chosen => exact dues_nonneg
  | stuck => exact dues_nonneg
  | @take chosen remaining pick later next rest ih =>
      calc ((pick :: later.picks).length : ℚ) = 1 + later.picks.length := by
            rw [List.length_cons, Nat.cast_add, Nat.cast_one, add_comm]
        _ ≤ 1 + dues candidates T (remaining.filter fun m => !pick.implicant.covers m) :=
          add_le_add_right (ih (spent.insert next.candidate) (covers.filter _)) 1
        _ ≤ dues candidates T remaining := next.one_add_dues_le spent covers

/-- **The greedy bound.** If no candidate covers more than `d` of the minterms, a greedy covering
has at most `1 + 1/2 + ⋯ + 1/d` times as many members as any other covering. -/
theorem greedy_le_harmonic {uncovered : List Word}
    (answered : greedy n uncovered candidates = .ok chosen)
    (covers : Covers uncovered candidates T) :
    (chosen.size : ℚ) ≤ harmonic (largestGain candidates uncovered) * T.card := by
  have run := greedyCovering_runs n uncovered candidates
  have size := (run.answer answered).2.1
  have empty : (IndexSet.withCapacity candidates.length).size = 0 := rfl
  rw [empty, Nat.zero_add] at size
  calc (chosen.size : ℚ) = (greedyCovering n uncovered candidates).picks.length := by rw [size]
    _ ≤ dues candidates T uncovered := run.length_picks_le (spent_withCapacity _ _ _) covers
    _ ≤ harmonic (largestGain candidates uncovered) * T.card := dues_le

/-- The last candidate covers four minterms and is taken first; then both others are needed, which
cover everything by themselves. -/
theorem greedy_le_harmonic_detour :
    let n : Arity := ⟨3, by decide⟩
    let uncovered : List Word := [1, 3, 5, 7, 0, 4]
    let candidates : List Implicant :=
      [⟨[0, 1, 2, 3], 3, 0⟩, ⟨[4, 5, 6, 7], 3, 4⟩, ⟨[1, 3, 5, 7], 6, 1⟩]
    let chosen := (((IndexSet.withCapacity 3).insert 2).insert 0).insert 1
    greedy n uncovered candidates = .ok chosen ∧ Covers uncovered candidates {0, 1} ∧
      chosen.size = 3 ∧ largestGain candidates uncovered = 4 ∧ (3 : ℚ) ≤ harmonic 4 * 2 := by
  intro n uncovered candidates chosen
  have answered : greedy n uncovered candidates = .ok chosen := by cbv
  have covers : Covers uncovered candidates {0, 1} := by decide
  have size : chosen.size = 3 := by decide
  have largest : largestGain candidates uncovered = 4 := by decide
  have two : ({0, 1} : Finset Nat).card = 2 := rfl
  have bound := greedy_le_harmonic answered covers
  rw [size, largest, two] at bound
  exact ⟨answered, covers, size, largest, bound⟩

end Covering

end TwoLevel
