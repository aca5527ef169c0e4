/-
# TwoLevel.Proofs.Partition — which side of a selection an entry is on

An entry of a list of implicants stands alone when it has a minterm that no other entry has
(`StandsAlone`). Other entries are those at other positions, so that an implicant which is listed
twice never stands alone. Coverage counts entries, and a count of one says the same
(`isEssential_iff_standsAlone`): the entries that stand alone are the essential ones, and as no two
of them have the same minterms there is nothing repeated among them to drop
(`select_essential_eq`).

Of the prime implicants of a function more is known. A minterm that is not covered once is covered
by two of them (`exists_other`). So the prime implicants without one that is not essential
still cover everything (`ListsPrimes.mem_essential_iff_forall`), and for what the essential ones
leave there is a choice (`ListsPrimes.exists_two_candidates`).
-/
import Mathlib.Data.List.Sigma
import TwoLevel.Proofs.Essentials

namespace TwoLevel

set_option autoImplicit false

/-- Of an entry with its position: one of its minterms is in no entry at another position. -/
def StandsAlone (implicants : List Implicant) (entry : Implicant × Nat) : Prop :=
  ∃ m ∈ entry.1.minterms, ∀ other ∈ implicants.zipIdx, m ∈ other.1.minterms → other.2 = entry.2

instance (implicants : List Implicant) (entry : Implicant × Nat) :
    Decidable (StandsAlone implicants entry) :=
  List.decidableBEx
    (fun m => ∀ other ∈ implicants.zipIdx, m ∈ other.1.minterms → other.2 = entry.2)
    entry.1.minterms

/-- Only one entry has a property when every entry that has it is at the position of a given one. -/
theorem countP_eq_one_iff {α : Type} {p : α → Bool} {l : List α} {a : α} {i : Nat}
    (here : l[i]? = some a) (holds : p a = true) :
    l.countP p = 1 ↔ ∀ j b, l[j]? = some b → p b = true → j = i := by
  induction l generalizing i with
  | nil => cases here
  | cons x rest ih =>
      cases i with
      | zero =>
          obtain rfl := Option.some.inj here
          rw [List.countP_cons_of_pos holds, Nat.add_eq_right, List.countP_eq_zero]
          constructor
          · intro none j b found also
            cases j with
            | zero => rfl
            | succ j => exact absurd also (none b (List.mem_of_getElem? found))
          · intro only b member also
            obtain ⟨j, found⟩ := List.mem_iff_getElem?.mp member
            cases only (j + 1) b found also
      | succ i =>
          have later : rest[i]? = some a := here
          by_cases first : p x = true
          · have positive : 0 < rest.countP p :=
              List.countP_pos_iff.mpr ⟨a, List.mem_of_getElem? later, holds⟩
            rw [List.countP_cons_of_pos first]
            refine ⟨fun one => by omega, fun only => ?_⟩
            cases only 0 x rfl first
          · rw [List.countP_cons_of_neg first, ih later]
            constructor
            · intro only j b found also
              cases j with
              | zero => exact absurd (Option.some.inj found ▸ also) first
              | succ j => rw [only j b found also]
            · intro only j b found also
              exact Nat.succ.inj (only (j + 1) b found also)

section Select

variable {implicants : List Implicant} {minterms : List Word}

theorem isEssential_iff_standsAlone {entry : Implicant × Nat}
    (listed : entry ∈ implicants.zipIdx) :
    isEssential implicants entry.1 = true ↔ StandsAlone implicants entry := by
  have here := List.mem_zipIdx_iff_getElem?.mp listed
  rw [isEssential_iff, StandsAlone]
  refine exists_congr fun m => ?_
  have covers : entry.1.covers m = true ↔ m ∈ entry.1.minterms := List.contains_iff_mem
  rw [covers]
  refine and_congr_right fun member => ?_
  rw [coverage, countP_eq_one_iff here (covers.mpr member)]
  simp only [Prod.forall, List.mem_zipIdx_iff_getElem?, Implicant.covers, List.contains_iff_mem]
  exact forall_comm

/-- Filtering the entries is filtering the positions. -/
theorem filter_eq_of_standsAlone {p : Implicant → Bool} {q : Implicant × Nat → Bool}
    (same : ∀ entry ∈ implicants.zipIdx, p entry.1 = q entry) :
    implicants.filter p = (implicants.zipIdx.filter q).map (·.1) := by
  calc implicants.filter p = (implicants.zipIdx.map (·.1)).filter p := by rw [List.zipIdx_map_fst]
    _ = (implicants.zipIdx.filter fun entry => p entry.1).map (·.1) := List.filter_map
    _ = (implicants.zipIdx.filter q).map (·.1) := by rw [List.filter_congr same]

theorem filter_isEssential :
    implicants.filter (isEssential implicants) =
      (implicants.zipIdx.filter fun entry => decide (StandsAlone implicants entry)).map (·.1) := by
  refine filter_eq_of_standsAlone fun entry listed => ?_
  rw [Bool.eq_iff_iff, isEssential_iff_standsAlone listed, decide_eq_true_iff]

/-- Two entries that stand alone have different minterms. -/
theorem keys_of_standsAlone :
    (((implicants.zipIdx.filter fun entry => decide (StandsAlone implicants entry)).map
      (·.1)).map (·.key)).Nodup := by
  have positions : implicants.zipIdx.Pairwise fun e f => e.2 ≠ f.2 :=
    List.pairwise_map.mp (List.nodup_zipIdx_map_snd implicants)
  rw [List.map_map, List.Nodup, List.pairwise_map]
  refine (positions.filter _).imp_of_mem fun {e f} left right differ same => ?_
  obtain ⟨-, alone⟩ := List.mem_filter.mp left
  obtain ⟨listed, -⟩ := List.mem_filter.mp right
  obtain ⟨m, own, only⟩ := of_decide_eq_true alone
  have minterms : e.1.minterms = f.1.minterms := congrArg Prod.fst same
  exact differ (only f listed (minterms ▸ own)).symm

theorem select_essential_eq :
    (select implicants minterms).essential =
      (implicants.zipIdx.filter fun entry => decide (StandsAlone implicants entry)).map (·.1) := by
  rw [select_essential, filter_isEssential, distinct_eq_self_of_keys keys_of_standsAlone]

theorem select_candidates_eq :
    (select implicants minterms).candidates =
      (implicants.zipIdx.filter fun entry => !decide (StandsAlone implicants entry)).map (·.1) := by
  rw [select_candidates]
  refine filter_eq_of_standsAlone fun entry listed => congrArg _ ?_
  rw [Bool.eq_iff_iff, isEssential_iff_standsAlone listed, decide_eq_true_iff]

theorem select_uncovered_eq :
    (select implicants minterms).uncovered =
      minterms.filter fun m =>
        decide (∀ a ∈ (select implicants minterms).essential, m ∉ a.minterms) := by
  have view : (select implicants minterms).uncovered =
      uncoveredBy (select implicants minterms).essential minterms := rfl
  rw [view, uncoveredBy]
  refine List.filter_congr fun m _ => ?_
  rw [Bool.eq_iff_iff, Bool.not_eq_true', List.any_eq_false, decide_eq_true_iff]
  simp only [Implicant.covers, List.contains_iff_mem]

/-- A minterm of an entry that is not covered once is covered by another entry. -/
theorem exists_other {a : Implicant} {m : Word} (once : implicants.Nodup)
    (listed : a ∈ implicants) (covers : a.covers m = true) (more : coverage implicants m ≠ 1) :
    ∃ b ∈ implicants, a ≠ b ∧ b.covers m = true := by
  obtain ⟨i, here⟩ := List.mem_iff_getElem?.mp listed
  rw [coverage, Ne, countP_eq_one_iff here covers] at more
  push Not at more
  obtain ⟨j, b, found, also, elsewhere⟩ := more
  refine ⟨b, List.mem_of_getElem? found, ?_, also⟩
  rintro rfl
  have bound := (List.getElem?_eq_some_iff.mp found).1
  exact elsewhere ((List.getElem?_inj bound once).mp (found.trans here.symm))

end Select

namespace ListsPrimes

variable {minterms : List Word} {primes : List Implicant} {a : Implicant} {m : Word}

/-- An essential implicant is one that every cover by prime implicants contains. -/
theorem mem_essential_iff_forall (known : ListsPrimes minterms primes) (member : a ∈ primes) :
    a ∈ (select primes minterms).essential ↔
      ∀ P : Finset Implicant, (∀ b ∈ P, b ∈ primes) → Spans minterms P → a ∈ P := by
  constructor
  · exact fun essential P prime spans => known.essential_mem prime spans a essential
  · intro every
    by_contra free
    -- the other prime implicants would be a cover without it
    refine Finset.notMem_erase a primes.toFinset (every _ ?_ ?_)
    · exact fun b other => List.mem_toFinset.mp (Finset.mem_of_mem_erase other)
    · intro m listed
      obtain ⟨b, first, covers⟩ := known.exists_covers listed
      by_cases same : b = a
      · subst same
        have more : coverage primes m ≠ 1 := fun one =>
          free ((mem_select_essential known.cubes).mpr
            ⟨member, isEssential_iff.mpr ⟨m, covers, one⟩⟩)
        obtain ⟨c, second, differ, also⟩ := exists_other known.once member covers more
        exact ⟨c, Finset.mem_erase.mpr ⟨differ.symm, List.mem_toFinset.mpr second⟩, also⟩
      · exact ⟨b, Finset.mem_erase.mpr ⟨same, List.mem_toFinset.mpr first⟩, covers⟩

/-- For what the essential implicants leave there are two candidates or more. -/
theorem exists_two_candidates (known : ListsPrimes minterms primes)
    (left : m ∈ (select primes minterms).uncovered) :
    ∃ a ∈ (select primes minterms).candidates, ∃ b ∈ (select primes minterms).candidates,
      a ≠ b ∧ a.covers m = true ∧ b.covers m = true := by
  obtain ⟨-, missed⟩ := mem_select_uncovered.mp left
  obtain ⟨a, candidate, covers⟩ := known.coverable m left
  obtain ⟨member, shared⟩ := mem_select_candidates.mp candidate
  have more : coverage primes m ≠ 1 := by
    intro one
    rw [isEssential_iff.mpr ⟨m, covers, one⟩] at shared
    cases shared
  obtain ⟨b, second, differ, also⟩ := exists_other known.once member covers more
  refine ⟨a, candidate, b, ?_, differ, covers, also⟩
  refine ((mem_select known.cubes).mp second).resolve_left fun essential => ?_
  rw [missed b essential] at also
  cases also

end ListsPrimes

/-- **What a selection selects.** The essential entries of a list are those with a minterm that no
other entry has, the candidates are all the others, both in the order of the list, and what is
uncovered are the minterms that no essential entry has, in their order. If the list holds the
prime implicants of a function, the essential ones are those that every cover by prime implicants
contains, and two candidates or more cover each minterm that is left. -/
theorem select_exact (primes : List Implicant) (minterms : List Word) :
    (select primes minterms).essential =
      (primes.zipIdx.filter fun entry => decide (StandsAlone primes entry)).map (·.1) ∧
    (select primes minterms).candidates =
      (primes.zipIdx.filter fun entry => !decide (StandsAlone primes entry)).map (·.1) ∧
    (select primes minterms).uncovered =
      minterms.filter (fun m =>
        decide (∀ a ∈ (select primes minterms).essential, m ∉ a.minterms)) ∧
    ∀ n : Arity, minterms.Pairwise (· < ·) → (∀ x ∈ minterms, x.toNat < 2 ^ n.size) →
      primes = (generate n minterms).primes →
      (∀ a ∈ primes, a ∈ (select primes minterms).essential ↔
        ∀ P : Finset Implicant, (∀ b ∈ P, b ∈ primes) → Spans minterms P → a ∈ P) ∧
      ∀ m ∈ (select primes minterms).uncovered,
        ∃ a ∈ (select primes minterms).candidates, ∃ b ∈ (select primes minterms).candidates,
          a ≠ b ∧ a.covers m = true ∧ b.covers m = true := by
  refine ⟨select_essential_eq, select_candidates_eq, select_uncovered_eq, ?_⟩
  rintro n ascending inRange rfl
  have admitted : ∀ x ∈ minterms, n.admits x = true := fun x member =>
    Arity.admits_iff_lt.mpr (inRange x member)
  have known := generate_listsPrimes ascending admitted
  exact ⟨fun a member => known.mem_essential_iff_forall member,
    fun m left => known.exists_two_candidates left⟩

/-- A ring of six minterms and one beside it: the edge to that one is in every cover by prime
implicants, and the minterms of the ring it does not have can still be covered in two ways. Of the
two edges of the ring listed here, the one listed twice is not essential. -/
theorem select_exact_tail :
    let n : Arity := ⟨4, by decide⟩
    let minterms : List Word := [0, 1, 2, 5, 6, 7, 15]
    let primes := (generate n minterms).primes
    (minterms.Pairwise (· < ·) ∧ ∀ x ∈ minterms, x.toNat < 2 ^ n.size) ∧
      (∀ P : Finset Implicant, (∀ b ∈ P, b ∈ primes) → Spans minterms P → ⟨[7, 15], 8, 7⟩ ∈ P) ∧
      (∃ a ∈ (select primes minterms).candidates, ∃ b ∈ (select primes minterms).candidates,
        a ≠ b ∧ a.covers 5 = true ∧ b.covers 5 = true) ∧
      (select [⟨[0, 1], 1, 0⟩, ⟨[2, 6], 4, 2⟩, ⟨[0, 1], 1, 0⟩] minterms).essential =
        [⟨[2, 6], 4, 2⟩] := by
  intro n minterms primes
  have ascending : minterms.Pairwise (· < ·) := by decide
  have inRange : ∀ x ∈ minterms, x.toNat < 2 ^ n.size := by simp [n, minterms]
  obtain ⟨-, -, -, exact⟩ := select_exact primes minterms
  obtain ⟨essential, two⟩ := exact n ascending inRange rfl
  refine ⟨⟨ascending, inRange⟩, (essential _ (by decide)).mp (by decide), two 5 (by decide), ?_⟩
  rw [(select_exact _ minterms).1]
  decide

end TwoLevel
