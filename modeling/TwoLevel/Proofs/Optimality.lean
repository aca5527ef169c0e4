/-
# TwoLevel.Proofs.Optimality — an exact result is minimal among all sums of products

Let any sum of products denote the function. Each of its products is true on a cube of
minterms, below a prime one with no more literals, so that there are prime implicants that
cover the function at no higher cost (`ListsPrimes.exists_primes`). They contain every
essential implicant and, among the candidates, an irredundant covering of what is left
(`ListsPrimes.exists_minimal_within`). The chosen combination is not dearer than that one
(`Covered.not_cheaper`), and what the essential implicants cost is added on both sides.
-/
import Mathlib.Algebra.Order.BigOperators.Group.List
import Mathlib.Algebra.Order.Ring.Nat
import Mathlib.Data.Prod.Lex
import TwoLevel.Proofs.PrimeCovers
import TwoLevel.Proofs.Soundness

namespace TwoLevel

set_option autoImplicit false

/-! ## From products to prime implicants -/

namespace Product

variable {p : Product} {n : Arity} {x : Word}

/-- The assignments on which a product is true. -/
def cube (p : Product) (n : Arity) : Cube where
  mask := ~~~p.care &&& n.mask
  base := p.value &&& p.care
  clear := Word.eq_of_bit_eq fun i => by cases held : p.care.bit i <;> simp [held]

theorem bit_mask_cube (i : Nat) :
    (p.cube n).mask.bit i = (!p.care.bit i && decide (i < n.size)) := by
  rw [cube, Word.bit_not_and, Arity.bit_mask]

theorem mem_cube_iff (inUse : n.admits p.care = true) :
    x ∈ p.cube n ↔ n.admits x = true ∧ p.eval x = true := by
  have low := Arity.admits_iff_bit.mp inUse
  rw [Cube.mem_iff_bit, Arity.admits_iff_bit, eval_iff_bit, ← forall_and]
  refine forall_congr' fun i => ?_
  have base : (p.cube n).base.bit i = (p.value.bit i && p.care.bit i) := Word.bit_and _ _ i
  rw [bit_mask_cube, base]
  cases held : p.care.bit i with
  | true => simp [low i held]
  | false => cases x.bit i <;> simp

theorem popCount_add_dimension_cube (inUse : n.admits p.care = true) :
    (p.cube n).dimension + p.care.popCount = n.size :=
  Arity.popCount_complement inUse

end Product

/-- A list without repetition costs no more than a list that contains it. -/
theorem cost_le_of_subset {n : Arity} {terms others : List Implicant} (once : terms.Nodup)
    (inside : terms ⊆ others) :
    terms.length ≤ others.length ∧
      (terms.map (·.literals n)).sum ≤ (others.map (·.literals n)).sum := by
  obtain ⟨shuffled, perm, sublist⟩ := once.subperm inside
  refine ⟨perm.length_eq ▸ sublist.length_le, ?_⟩
  rw [← (perm.map _).sum_eq]
  exact (sublist.map _).sum_le_sum fun _ _ => Nat.zero_le _

namespace ListsPrimes

variable {n : Arity} {minterms : List Word} {primes : List Implicant}

/-- Products that are true on minterms only lie below prime implicants that cost no more. -/
theorem exists_primes (known : ListsPrimes minterms primes)
    (inRange : ∀ m ∈ minterms, n.admits m = true) {products : List Product}
    (inUse : ∀ p ∈ products, n.admits p.care = true)
    (sound : ∀ p ∈ products, ∀ x, n.admits x = true → p.eval x = true → x ∈ minterms) :
    ∃ cover : List Implicant, cover ⊆ primes ∧ cover.length = products.length ∧
      (cover.map (·.literals n)).sum ≤ (products.map (·.care.popCount)).sum ∧
      ∀ p ∈ products, ∀ x, n.admits x = true → p.eval x = true →
        ∃ a ∈ cover, a.covers x = true := by
  induction products with
  | nil => exact ⟨[], List.nil_subset _, rfl, Nat.le_refl _, fun p member => by cases member⟩
  | cons p products ih =>
      obtain ⟨used, usedLater⟩ := List.forall_mem_cons.mp inUse
      obtain ⟨holds, holdsLater⟩ := List.forall_mem_cons.mp sound
      obtain ⟨cover, prime, length, literals, covered⟩ := ih usedLater holdsLater
      have whole : (p.cube n).Within minterms := fun x member => by
        obtain ⟨admitted, value⟩ := (Product.mem_cube_iff used).mp member
        exact holds x admitted value
      obtain ⟨a, member, d, repr, inside, isPrime⟩ := known.exists_above whole
      have fewer : a.literals n ≤ p.care.popCount := by
        have own := repr.literals_add (isPrime.within.isOver inRange)
        have given := p.popCount_add_dimension_cube used
        have larger := Cube.dimension_le inside
        omega
      refine ⟨a :: cover, List.cons_subset.mpr ⟨member, prime⟩, by rw [List.length_cons, length,
        List.length_cons], ?_, fun q listed x admitted value => ?_⟩
      · rw [List.map_cons, List.sum_cons, List.map_cons, List.sum_cons]
        exact Nat.add_le_add fewer literals
      · rcases List.mem_cons.mp listed with rfl | later
        · have below := inside x ((Product.mem_cube_iff used).mpr ⟨admitted, value⟩)
          exact ⟨a, List.mem_cons_self, repr.covers_iff.mpr below⟩
        · obtain ⟨b, chosen, covers⟩ := covered q later x admitted value
          exact ⟨b, List.mem_cons_of_mem a chosen, covers⟩

/-- In every cover by prime implicants there is an irredundant choice of candidates, next
to the essential ones. -/
theorem exists_minimal_within (known : ListsPrimes minterms primes) {cover : List Implicant}
    (prime : cover ⊆ primes) (covered : ∀ m ∈ minterms, ∃ b ∈ cover, b.covers m = true) :
    ∃ chosen : IndexSet,
      Minimal (Covering.Covers (select primes minterms).uncovered
        (select primes minterms).candidates) chosen.members ∧
      (select primes minterms).cover chosen ⊆ cover := by
  have isPrime : ∀ a ∈ cover.toFinset, a ∈ primes := fun a member =>
    prime (List.mem_toFinset.mp member)
  have spans : Spans minterms cover.toFinset := by
    simpa only [Spans, List.mem_toFinset] using covered
  obtain ⟨D, inside, minimal⟩ :=
    Covering.exists_minimal_covers (known.covers_positions isPrime spans)
  have members : (IndexSet.ofList D.toList).members = D := by
    rw [IndexSet.members_ofList, Finset.toList_toFinset]
  refine ⟨IndexSet.ofList D.toList, members.symm ▸ minimal, fun a member => ?_⟩
  rw [Selection.mem_cover, members] at member
  exact List.mem_toFinset.mp
    (Selection.implicants_subset (known.essential_mem isPrime spans) inside member)

end ListsPrimes

/-! ## The choice -/

/-- No irredundant combination is cheaper than one that was chosen by cost. -/
theorem Covered.not_cheaper {config : Config} {n : Arity} {s : Selection} {choice : Choice}
    (coverable : ∀ m ∈ s.uncovered, ∃ a ∈ s.candidates, a.covers m = true)
    (covered : Covered config n s choice) (exact : choice.greedy = false) {other : IndexSet}
    (minimal : Minimal (Covering.Covers s.uncovered s.candidates) other.members) :
    ¬Cheaper n s.candidates other choice.chosen := by
  cases covered with
  | nothing done =>
      intro cheaper
      rcases Cost.lt_iff.mp cheaper with fewer | ⟨-, fewer⟩
      · exact absurd fewer (Nat.not_lt_zero _)
      · exact absurd fewer (Nat.not_lt_zero _)
  | cheapest left listed best => exact (choose_spec coverable listed best).2 other minimal
  | greedy left exceeded policy taken => cases exact

theorem Cost.literals_ofTerms (n : Arity) (terms : List Implicant) :
    (ofTerms n terms).literals = (terms.map (·.literals n)).sum := rfl

/-- The essential implicants cost the same next to every choice, so a choice by cost makes
the cheapest of all covers by prime implicants. -/
theorem ListsPrimes.cost_cover_le {config : Config} {n : Arity} {minterms : List Word}
    {primes : List Implicant} {choice : Choice} (known : ListsPrimes minterms primes)
    (covered : Covered config n (select primes minterms) choice) (exact : choice.greedy = false)
    {cover : List Implicant} (prime : cover ⊆ primes)
    (covers : ∀ m ∈ minterms, ∃ b ∈ cover, b.covers m = true) :
    toLex (((select primes minterms).cover choice.chosen).length,
        (((select primes minterms).cover choice.chosen).map (·.literals n)).sum) ≤
      toLex (cover.length, (cover.map (·.literals n)).sum) := by
  obtain ⟨other, minimal, inside⟩ := known.exists_minimal_within prime covers
  have notCheaper := covered.not_cheaper known.coverable exact minimal
  obtain ⟨fewer, fewerLiterals⟩ := cost_le_of_subset (n := n) known.cover_nodup inside
  rw [Cheaper, Cost.lt_iff] at notCheaper
  simp only [Cost.literals_ofTerms] at notCheaper
  simp only [Cost.ofTerms] at notCheaper
  simp only [Selection.cover, List.length_append] at fewer
  simp only [Selection.cover, List.map_append, List.sum_append] at fewerLiterals
  simp only [Selection.cover, List.length_append, List.map_append, List.sum_append,
    Prod.Lex.toLex_le_toLex]
  omega

/-- **Optimality.** A result that was not chosen greedily has as few terms, and with as many
terms as few literals, as any sum of products that denotes the function. -/
theorem minimizeTraced_optimal (config : Config) (minterms : List Word) (n : Arity)
    (r : Minimization) (t : Trace) (answered : minimizeTraced config minterms n.size = .ok (r, t))
    (exact : t.greedy = false) (notTrue : ∃ x : Word, x.toNat < 2 ^ n.size ∧ x ∉ minterms)
    (products : List Product) (inUse : ∀ p ∈ products, p.care.toNat < 2 ^ n.size)
    (denotes : ∀ x : Word, x.toNat < 2 ^ n.size →
      (Expression.eval ⟨products⟩ x = true ↔ x ∈ minterms)) :
    toLex (r.cover.length, (r.cover.map (·.literals n)).sum) ≤
      toLex (products.length, (products.map (·.care.popCount)).sum) := by
  obtain ⟨-, inRange, course⟩ := minimizeTraced_eq_ok_iff.mp answered
  have listed {x : Word} : x ∈ Ascending.ofList minterms ↔ x ∈ minterms := Ascending.mem_ofList
  have admitted : ∀ m ∈ Ascending.ofList minterms, n.admits m = true := fun m member =>
    inRange m (listed.mp member)
  cases course with
  | never none => exact Prod.Lex.toLex_mono ⟨Nat.zero_le _, Nat.zero_le _⟩
  | always some all =>
      obtain ⟨x, below, absent⟩ := notTrue
      have every := (length_eq_iff_forall (Ascending.pairwise_ofList minterms) admitted).mp all
      exact absurd (listed.mp (every x (Arity.admits_iff_lt.mpr below))) absent
  | @proper choice some notAll covered fits =>
      have known := generate_listsPrimes (Ascending.pairwise_ofList minterms) admitted
      have sound : ∀ p ∈ products, ∀ x, n.admits x = true → p.eval x = true →
          x ∈ Ascending.ofList minterms := by
        intro p member x inside value
        have holds : Expression.eval ⟨products⟩ x = true := List.any_eq_true.mpr ⟨p, member, value⟩
        exact listed.mpr ((denotes x (Arity.admits_iff_lt.mp inside)).mp holds)
      obtain ⟨cover, prime, length, literals, covers⟩ := known.exists_primes admitted
        (fun p member => Arity.admits_iff_lt.mpr (inUse p member)) sound
      have spans : ∀ m ∈ Ascending.ofList minterms, ∃ a ∈ cover, a.covers m = true := by
        intro m member
        have inside := admitted m member
        have holds := (denotes m (Arity.admits_iff_lt.mp inside)).mpr (listed.mp member)
        obtain ⟨p, given, value⟩ := List.any_eq_true.mp holds
        exact covers p given m inside value
      have cheapest := known.cost_cover_le covered exact prime spans
      rw [← known.distinct_cover] at cheapest
      refine cheapest.trans (Prod.Lex.toLex_mono ⟨length.le, literals⟩)

/-- The ring of six minterms is `A'B' + BC' + AC`, so its answer has at most three terms. -/
theorem minimizeTraced_optimal_ring :
    ∃ r t, minimizeTraced {} [6, 0, 1, 2, 7, 5, 1] 3 = .ok (r, t) ∧ t.greedy = false ∧
      r.cover.length ≤ 3 := by
  obtain ⟨r, t, answered, exact⟩ : ∃ r t,
      minimizeTraced {} [6, 0, 1, 2, 7, 5, 1] 3 = .ok (r, t) ∧ t.greedy = false :=
    ⟨_, _, rfl, rfl⟩
  have table : ∀ k < 8, Expression.eval ⟨[⟨6, 0⟩, ⟨3, 2⟩, ⟨5, 5⟩]⟩ (UInt64.ofNat k) = true ↔
      UInt64.ofNat k ∈ ([6, 0, 1, 2, 7, 5, 1] : List Word) := by decide
  have cost := minimizeTraced_optimal {} _ ⟨3, by decide⟩ r t answered exact
    ⟨3, by decide, by decide⟩ [⟨6, 0⟩, ⟨3, 2⟩, ⟨5, 5⟩] (by decide) fun x below => by
      simpa using table x.toNat below
  refine ⟨r, t, answered, exact, ?_⟩
  rcases Prod.Lex.toLex_le_toLex.mp cost with fewer | ⟨same, -⟩
  · exact Nat.le_of_lt fewer
  · exact Nat.le_of_eq same

end TwoLevel
