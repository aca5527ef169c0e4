/-
# TwoLevel.Proofs.Essentials — what a selection splits, and what every cover contains

A selection keeps the essential implicants once each and leaves the others, and no
entry is both. Two entries that cover a minterm which is covered once are the same entry
(`eq_of_coverage`).

Of a list that holds the prime implicants of a function (`ListsPrimes`) the following is
true. What the essential ones leave uncovered is covered by the candidates
(`ListsPrimes.coverable`). Prime implicants that cover all minterms (`Spans`) have every
essential one among them (`ListsPrimes.essential_mem`): only that one covers some minterm. And
a choice of candidates that covers what is left is, together with the essential ones, a cover
of the function (`spans_implicants`, `ListsPrimes.mem_iff_exists_cover`).
-/
import Mathlib.Data.Finset.Option
import Mathlib.Data.Finset.Union
import TwoLevel.Proofs.Irredundance
import TwoLevel.Proofs.Primes
import TwoLevel.Selection

namespace TwoLevel

set_option autoImplicit false

section Select

variable {implicants : List Implicant} {minterms : List Word} {a b : Implicant} {m : Word}

theorem select_essential :
    (select implicants minterms).essential =
      distinct (implicants.filter (isEssential implicants)) := by
  rw [select, List.partition_eq_filter_filter]

theorem select_candidates :
    (select implicants minterms).candidates =
      implicants.filter fun a => !isEssential implicants a := by
  rw [select, List.partition_eq_filter_filter]
  rfl

theorem mem_select_uncovered :
    m ∈ (select implicants minterms).uncovered ↔
      m ∈ minterms ∧ ∀ a ∈ (select implicants minterms).essential, a.covers m = false := by
  have view : (select implicants minterms).uncovered =
      uncoveredBy (select implicants minterms).essential minterms := rfl
  rw [view, uncoveredBy, List.mem_filter, Bool.not_eq_true', List.any_eq_false]
  simp only [Bool.not_eq_true]

theorem isEssential_iff :
    isEssential implicants a = true ↔ ∃ m, a.covers m = true ∧ coverage implicants m = 1 := by
  simp only [isEssential, List.any_eq_true, coveredOnce_eq, beq_iff_eq, Implicant.covers,
    List.contains_iff_mem]

/-- Only one entry covers a minterm that is covered once. -/
theorem eq_of_coverage (once : coverage implicants m = 1) (left : a ∈ implicants)
    (right : b ∈ implicants) (leftCovers : a.covers m = true) (rightCovers : b.covers m = true) :
    a = b := by
  rw [coverage, List.countP_eq_length_filter] at once
  obtain ⟨e, alone⟩ := List.length_eq_one_iff.mp once
  have own : a ∈ implicants.filter (·.covers m) := List.mem_filter.mpr ⟨left, leftCovers⟩
  have other : b ∈ implicants.filter (·.covers m) := List.mem_filter.mpr ⟨right, rightCovers⟩
  rw [alone, List.mem_singleton] at own other
  rw [own, other]

theorem mem_select_essential (cubes : AllCubes implicants) :
    a ∈ (select implicants minterms).essential ↔
      a ∈ implicants ∧ isEssential implicants a = true := by
  rw [select_essential, mem_distinct (cubes.of_subset (List.filter_subset_self _)), List.mem_filter]

theorem mem_select_candidates :
    a ∈ (select implicants minterms).candidates ↔
      a ∈ implicants ∧ isEssential implicants a = false := by
  rw [select_candidates, List.mem_filter, Bool.not_eq_true']

/-- Every entry is on one of the two sides. -/
theorem mem_select (cubes : AllCubes implicants) :
    a ∈ implicants ↔
      a ∈ (select implicants minterms).essential ∨ a ∈ (select implicants minterms).candidates := by
  rw [mem_select_essential cubes, mem_select_candidates]
  cases isEssential implicants a <;> simp

theorem select_disjoint :
    (select implicants minterms).essential.Disjoint (select implicants minterms).candidates := by
  intro a essential candidate
  rw [select_essential] at essential
  have alone := (List.mem_filter.mp ((distinct_sublist _).subset essential)).2
  have shared := (mem_select_candidates.mp candidate).2
  rw [alone] at shared
  cases shared

end Select

/-- The list holds the prime implicants of the function that is true on `minterms`, each
once, and nothing else. -/
structure ListsPrimes (minterms : List Word) (primes : List Implicant) : Prop where
  once : primes.Nodup
  prime : ∀ a ∈ primes, ∃ c : Cube, a.Represents c ∧ c.IsPrime minterms
  complete : ∀ c : Cube, c.IsPrime minterms → ∃ a ∈ primes, a.Represents c

theorem generate_listsPrimes {n : Arity} {minterms : List Word}
    (ascending : minterms.Pairwise (· < ·)) (admitted : ∀ x ∈ minterms, n.admits x = true) :
    ListsPrimes minterms (generate n minterms).primes where
  once := primes_nodup ascending admitted
  prime _ := (mem_primes ascending admitted).mp
  complete _ := exists_mem_primes ascending admitted

theorem admits_ofList {n : Arity} {minterms : List Word}
    (inRange : ∀ m ∈ minterms, n.admits m = true) :
    ∀ m ∈ Ascending.ofList minterms, n.admits m = true :=
  fun m member => inRange m (Ascending.mem_ofList.mp member)

/-- Minterms in any order, once they are sorted. -/
theorem listsPrimes_ofList {n : Arity} {minterms : List Word}
    (inRange : ∀ m ∈ minterms, n.admits m = true) :
    ListsPrimes (Ascending.ofList minterms) (generate n (Ascending.ofList minterms)).primes :=
  generate_listsPrimes (Ascending.pairwise_ofList minterms) (admits_ofList inRange)

/-- One of the implicants covers each minterm. -/
def Spans (minterms : List Word) (P : Finset Implicant) : Prop :=
  ∀ m ∈ minterms, ∃ a ∈ P, a.covers m = true

theorem Spans.mono {minterms : List Word} {P Q : Finset Implicant} (spans : Spans minterms P)
    (inside : P ⊆ Q) : Spans minterms Q := by
  intro m listed
  obtain ⟨a, member, covers⟩ := spans m listed
  exact ⟨a, inside member, covers⟩

namespace ListsPrimes

variable {minterms : List Word} {primes : List Implicant} {a : Implicant} {m : Word}

theorem cubes (known : ListsPrimes minterms primes) : AllCubes primes := by
  intro a member
  obtain ⟨c, repr, -⟩ := known.prime a member
  exact ⟨c, repr⟩

theorem sound (known : ListsPrimes minterms primes) (member : a ∈ primes)
    (covers : a.covers m = true) : m ∈ minterms := by
  obtain ⟨c, repr, prime⟩ := known.prime a member
  exact prime.within m (repr.covers_iff.mp covers)

/-- Above every cube within the minterms there is a prime implicant. -/
theorem exists_above (known : ListsPrimes minterms primes) {c : Cube} (whole : c.Within minterms) :
    ∃ a ∈ primes, ∃ d, a.Represents d ∧ c ≤ d ∧ d.IsPrime minterms := by
  obtain ⟨d, inside, prime⟩ := Cube.exists_isPrime_ge whole
  obtain ⟨a, member, repr⟩ := known.complete d prime
  exact ⟨a, member, d, repr, inside, prime⟩

theorem exists_covers (known : ListsPrimes minterms primes) (listed : m ∈ minterms) :
    ∃ a ∈ primes, a.covers m = true := by
  obtain ⟨a, member, d, repr, inside, -⟩ := known.exists_above (Cube.within_point.mpr listed)
  exact ⟨a, member, repr.covers_iff.mpr (inside m (Cube.mem_point.mpr rfl))⟩

/-- What the essential implicants leave is left to the candidates. -/
theorem coverable (known : ListsPrimes minterms primes) :
    ∀ m ∈ (select primes minterms).uncovered, ∃ a ∈ (select primes minterms).candidates,
      a.covers m = true := by
  intro m left
  obtain ⟨listed, missed⟩ := mem_select_uncovered.mp left
  obtain ⟨a, member, covers⟩ := known.exists_covers listed
  rcases (mem_select known.cubes).mp member with essential | candidate
  · rw [missed a essential] at covers
    cases covers
  · exact ⟨a, candidate, covers⟩

/-- Every cover by prime implicants contains the essential ones. -/
theorem essential_mem (known : ListsPrimes minterms primes) {P : Finset Implicant}
    (prime : ∀ a ∈ P, a ∈ primes) (spans : Spans minterms P) :
    ∀ a ∈ (select primes minterms).essential, a ∈ P := by
  intro a essential
  obtain ⟨member, alone⟩ := (mem_select_essential known.cubes).mp essential
  obtain ⟨m, covers, once⟩ := isEssential_iff.mp alone
  obtain ⟨b, chosen, shared⟩ := spans m (known.sound member covers)
  exact eq_of_coverage once member (prime b chosen) covers shared ▸ chosen

theorem candidates_nodup (known : ListsPrimes minterms primes) :
    (select primes minterms).candidates.Nodup := by
  rw [select_candidates]
  exact known.once.filter _

end ListsPrimes

/-! ## The cover of a choice -/

namespace Selection

variable {s : Selection} {C : Finset Nat} {chosen : IndexSet} {a : Implicant}

/-- The essential implicants and the candidates at the positions in `C`. -/
def implicants (s : Selection) (C : Finset Nat) : Finset Implicant :=
  s.essential.toFinset ∪ C.biUnion fun i => s.candidates[i]?.toFinset

/-- The same of an index set, as a list. -/
def cover (s : Selection) (chosen : IndexSet) : List Implicant :=
  s.essential ++ chosen.pick s.candidates

/-- The candidates at the members of a set cover what the essential implicants leave. -/
def Completes (s : Selection) (chosen : IndexSet) : Prop :=
  Covering.Covers s.uncovered s.candidates chosen.members

theorem mem_implicants :
    a ∈ s.implicants C ↔ a ∈ s.essential ∨ ∃ i ∈ C, s.candidates[i]? = some a := by
  simp only [implicants, Finset.mem_union, List.mem_toFinset, Finset.mem_biUnion,
    Option.mem_toFinset, Option.mem_def]

theorem mem_cover : a ∈ s.cover chosen ↔ a ∈ s.implicants chosen.members := by
  rw [cover, List.mem_append, IndexSet.mem_pick, mem_implicants]

end Selection

/-- Candidates that cover what the essential implicants leave complete them to a cover of
the function. -/
theorem spans_implicants {minterms : List Word} {primes : List Implicant} {C : Finset Nat}
    (covers : Covering.Covers (select primes minterms).uncovered
      (select primes minterms).candidates C) :
    Spans minterms ((select primes minterms).implicants C) := by
  intro m listed
  by_cases left : m ∈ (select primes minterms).uncovered
  · obtain ⟨i, chosen, a, found, holds⟩ := covers m left
    exact ⟨a, Selection.mem_implicants.mpr (.inr ⟨i, chosen, found⟩), holds⟩
  · rw [mem_select_uncovered, not_and] at left
    push Not at left
    obtain ⟨a, essential, holds⟩ := left listed
    exact ⟨a, Selection.mem_implicants.mpr (.inl essential), Bool.not_eq_false _ ▸ holds⟩

namespace ListsPrimes

variable {minterms : List Word} {primes : List Implicant} {chosen : IndexSet}

theorem cover_subset (known : ListsPrimes minterms primes) :
    (select primes minterms).cover chosen ⊆ primes := by
  intro a member
  have split := (List.mem_append.mp member).imp_right fun picked => IndexSet.pick_subset picked
  exact (mem_select known.cubes).mpr split

theorem cover_nodup (known : ListsPrimes minterms primes) :
    ((select primes minterms).cover chosen).Nodup := by
  refine List.nodup_append'.mpr ⟨?_, ?_, fun a essential picked => ?_⟩
  · rw [select_essential]
    exact distinct_nodup _
  · exact IndexSet.nodup_pick known.candidates_nodup
  · exact select_disjoint essential (IndexSet.pick_subset picked)

/-- A cover has no repetitions to drop. -/
theorem distinct_cover (known : ListsPrimes minterms primes) :
    distinct ((select primes minterms).cover chosen) = (select primes minterms).cover chosen :=
  distinct_eq_self (known.cubes.of_subset known.cover_subset) known.cover_nodup

/-- A cover is true on the minterms and nowhere else. -/
theorem mem_iff_exists_cover (known : ListsPrimes minterms primes)
    (complete : (select primes minterms).Completes chosen) {m : Word} :
    m ∈ minterms ↔ ∃ a ∈ (select primes minterms).cover chosen, a.covers m = true := by
  constructor
  · intro listed
    obtain ⟨a, member, covers⟩ := spans_implicants complete m listed
    exact ⟨a, Selection.mem_cover.mpr member, covers⟩
  · rintro ⟨a, member, covers⟩
    exact known.sound (known.cover_subset member) covers

end ListsPrimes

end TwoLevel
