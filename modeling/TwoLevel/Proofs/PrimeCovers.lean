/-
# TwoLevel.Proofs.PrimeCovers — the irredundant covers by prime implicants

A cover by prime implicants is irredundant when without any one of them it is no cover any
more (`IsIrredundantCover`). A choice of candidates stands for such a set: the essential
implicants and the candidates chosen (`Selection.implicants`). From a set of implicants the
positions of the candidates in it lead back (`Selection.positions`).

Both maps keep inclusion, and each undoes the other between the choices that cover what the
essential implicants leave and the covers by prime implicants: such a cover contains the
essential ones, and among the minterms these leave it has only candidates to rely on
(`ListsPrimes.covers_positions`). So they take what is minimal on one side to what is minimal
on the other, and the irredundant choices are the irredundant covers
(`ListsPrimes.isIrredundantCover_iff_exists`), which an exact run lists.
-/
import Mathlib.Order.CompleteLattice.Finset
import TwoLevel.Proofs.Soundness

namespace TwoLevel

set_option autoImplicit false

/-! ## Irredundant covers -/

/-- The implicant describes a prime cube of the function that is true on `minterms`. -/
def Implicant.IsPrime (minterms : List Word) (a : Implicant) : Prop :=
  ∃ c : Cube, a.Represents c ∧ c.IsPrime minterms

/-- The disjunction of the implicants is the function of `n` variables that is true on
`minterms`. -/
def IsCover (n : Arity) (minterms : List Word) (P : Finset Implicant) : Prop :=
  ∀ x : Word, x.toNat < 2 ^ n.size → ((∃ a ∈ P, a.eval x = true) ↔ x ∈ minterms)

/-- Prime implicants that make up the function, none of which can be removed. -/
structure IsIrredundantCover (n : Arity) (minterms : List Word) (P : Finset Implicant) : Prop where
  prime : ∀ a ∈ P, a.IsPrime minterms
  cover : IsCover n minterms P
  needed : ∀ a ∈ P, ¬IsCover n minterms (P.erase a)

section Cover

variable {n : Arity} {minterms others : List Word} {P : Finset Implicant}

/-- Only membership in the list of minterms matters. -/
theorem isIrredundantCover_congr (same : ∀ x, x ∈ minterms ↔ x ∈ others) :
    IsIrredundantCover n minterms P ↔ IsIrredundantCover n others P := by
  have within : Cube.Within minterms = Cube.Within others := by
    funext c
    simp only [Cube.Within, same]
  have prime : Implicant.IsPrime minterms = Implicant.IsPrime others := by
    funext a
    simp only [Implicant.IsPrime, Cube.IsPrime, within]
  have cover : IsCover n minterms = IsCover n others := by
    funext P
    simp only [IsCover, same]
  constructor
  · rintro ⟨isPrime, isCover, needed⟩
    exact ⟨prime ▸ isPrime, cover ▸ isCover, cover ▸ needed⟩
  · rintro ⟨isPrime, isCover, needed⟩
    exact ⟨prime ▸ isPrime, cover ▸ isCover, cover ▸ needed⟩

/-- Prime implicants are true on minterms only, so that they make up the function as soon as
they cover it. -/
theorem isCover_iff_spans (admitted : ∀ m ∈ minterms, n.admits m = true)
    (prime : ∀ a ∈ P, a.IsPrime minterms) : IsCover n minterms P ↔ Spans minterms P := by
  have value {a : Implicant} (member : a ∈ P) (x : Word) : a.eval x = true ↔ a.covers x = true := by
    obtain ⟨c, repr, -⟩ := prime a member
    rw [repr.eval_iff, repr.covers_iff]
  constructor
  · intro isCover m listed
    obtain ⟨a, member, holds⟩ := (isCover m (Arity.admits_iff_lt.mp (admitted m listed))).mpr listed
    exact ⟨a, member, (value member m).mp holds⟩
  · intro spans x _
    constructor
    · rintro ⟨a, member, holds⟩
      obtain ⟨c, repr, isPrime⟩ := prime a member
      exact isPrime.within x (repr.eval_iff.mp holds)
    · intro listed
      obtain ⟨a, member, covers⟩ := spans x listed
      exact ⟨a, member, (value member x).mpr covers⟩

theorem isIrredundantCover_iff_minimal (admitted : ∀ m ∈ minterms, n.admits m = true) :
    IsIrredundantCover n minterms P ↔
      (∀ a ∈ P, a.IsPrime minterms) ∧ Minimal (Spans minterms) P := by
  rw [Finset.minimal_iff_forall_erase fun _ _ spans inside => Spans.mono spans inside]
  have part (prime : ∀ a ∈ P, a.IsPrime minterms) (a : Implicant) :
      IsCover n minterms (P.erase a) ↔ Spans minterms (P.erase a) :=
    isCover_iff_spans admitted fun b member => prime b (Finset.mem_of_mem_erase member)
  constructor
  · rintro ⟨prime, isCover, needed⟩
    refine ⟨prime, (isCover_iff_spans admitted prime).mp isCover, fun a member spans => ?_⟩
    exact needed a member ((part prime a).mpr spans)
  · rintro ⟨prime, spans, needed⟩
    refine ⟨prime, (isCover_iff_spans admitted prime).mpr spans, fun a member isCover => ?_⟩
    exact needed a member ((part prime a).mp isCover)

end Cover

/-! ## Choices of candidates and sets of implicants -/

namespace Selection

variable {s : Selection} {P Q : Finset Implicant} {C : Finset Nat} {i : Nat}

/-- The positions of the candidates in `P`. -/
def positions (s : Selection) (P : Finset Implicant) : Finset Nat :=
  (Finset.range s.candidates.length).filter fun i => ∃ a ∈ P, s.candidates[i]? = some a

theorem mem_positions : i ∈ s.positions P ↔ ∃ a ∈ P, s.candidates[i]? = some a := by
  rw [positions, Finset.mem_filter, Finset.mem_range, and_iff_right_iff_imp]
  rintro ⟨a, -, found⟩
  exact (List.getElem?_eq_some_iff.mp found).1

theorem positions_mono (inside : P ⊆ Q) : s.positions P ⊆ s.positions Q := by
  intro i member
  obtain ⟨a, known, found⟩ := mem_positions.mp member
  exact mem_positions.mpr ⟨a, inside known, found⟩

/-- The candidates at the positions of the candidates in `P` are in `P`. -/
theorem implicants_subset (essential : ∀ a ∈ s.essential, a ∈ P) (inside : C ⊆ s.positions P) :
    s.implicants C ⊆ P := by
  intro a member
  rcases mem_implicants.mp member with own | ⟨i, chosen, found⟩
  · exact essential a own
  · obtain ⟨b, known, same⟩ := mem_positions.mp (inside chosen)
    rw [found] at same
    exact Option.some.inj same ▸ known

end Selection

/-- If nothing is left to cover, nothing has to be chosen. -/
theorem Covering.minimal_covers_nil {candidates : List Implicant} {C : Finset Nat} :
    Minimal (Covers [] candidates) C ↔ C = ∅ := by
  have trivial (D : Finset Nat) : Covers [] candidates D := by
    intro m listed
    cases listed
  constructor
  · intro minimal
    exact Finset.subset_empty.mp (minimal.le_of_le (trivial ∅) (Finset.empty_subset C))
  · rintro rfl
    exact ⟨trivial ∅, fun D _ _ => Finset.empty_subset D⟩

namespace ListsPrimes

variable {n : Arity} {minterms : List Word} {primes : List Implicant} {P : Finset Implicant}
  {C : Finset Nat}

theorem mem_iff (known : ListsPrimes minterms primes) {a : Implicant} :
    a ∈ primes ↔ a.IsPrime minterms := by
  constructor
  · exact known.prime a
  · rintro ⟨c, repr, prime⟩
    obtain ⟨b, member, again⟩ := known.complete c prime
    exact repr.unique again ▸ member

/-- Of a choice the positions are found again. -/
theorem positions_implicants (known : ListsPrimes minterms primes)
    (within : ∀ i ∈ C, i < (select primes minterms).candidates.length) :
    (select primes minterms).positions ((select primes minterms).implicants C) = C := by
  ext i
  rw [Selection.mem_positions]
  constructor
  · rintro ⟨a, member, found⟩
    rcases Selection.mem_implicants.mp member with essential | ⟨j, chosen, also⟩
    · exact absurd (List.mem_of_getElem? found) (select_disjoint essential)
    · obtain ⟨below, first⟩ := List.getElem?_eq_some_iff.mp found
      obtain ⟨_, second⟩ := List.getElem?_eq_some_iff.mp also
      obtain rfl := known.candidates_nodup.getElem_inj_iff.mp (first.trans second.symm)
      exact chosen
  · intro chosen
    have found := List.getElem?_eq_getElem (within i chosen)
    exact ⟨_, Selection.mem_implicants.mpr (.inr ⟨i, chosen, found⟩), found⟩

/-- The candidates in a cover by prime implicants cover what the essential ones leave. -/
theorem covers_positions (known : ListsPrimes minterms primes) (prime : ∀ a ∈ P, a ∈ primes)
    (spans : Spans minterms P) :
    Covering.Covers (select primes minterms).uncovered (select primes minterms).candidates
      ((select primes minterms).positions P) := by
  intro m left
  obtain ⟨listed, missed⟩ := mem_select_uncovered.mp left
  obtain ⟨a, member, covers⟩ := spans m listed
  rcases (mem_select known.cubes).mp (prime a member) with essential | candidate
  · rw [missed a essential] at covers
    cases covers
  · obtain ⟨i, found⟩ := List.mem_iff_getElem?.mp candidate
    exact ⟨i, Selection.mem_positions.mpr ⟨a, member, found⟩, a, found, covers⟩

theorem implicants_subset_primes (known : ListsPrimes minterms primes) :
    ∀ a ∈ (select primes minterms).implicants C, a ∈ primes := by
  intro a member
  refine (mem_select known.cubes).mpr ((Selection.mem_implicants.mp member).imp_right ?_)
  rintro ⟨i, -, found⟩
  exact List.mem_of_getElem? found

/-- A cover by prime implicants is the one that its candidates stand for. -/
theorem implicants_positions (known : ListsPrimes minterms primes) (prime : ∀ a ∈ P, a ∈ primes)
    (spans : Spans minterms P) :
    (select primes minterms).implicants ((select primes minterms).positions P) = P := by
  have essential := known.essential_mem prime spans
  refine (Selection.implicants_subset essential subset_rfl).antisymm fun a member => ?_
  refine Selection.mem_implicants.mpr ((mem_select known.cubes).mp (prime a member) |>.imp_right ?_)
  intro candidate
  obtain ⟨i, found⟩ := List.mem_iff_getElem?.mp candidate
  exact ⟨i, Selection.mem_positions.mpr ⟨a, member, found⟩, found⟩

/-- An irredundant choice stands for an irredundant cover. -/
theorem minimal_implicants (known : ListsPrimes minterms primes)
    (minimal : Minimal (Covering.Covers (select primes minterms).uncovered
      (select primes minterms).candidates) C) :
    Minimal (Spans minterms) ((select primes minterms).implicants C) := by
  refine ⟨spans_implicants minimal.prop, fun Q spans smaller => ?_⟩
  have prime : ∀ a ∈ Q, a ∈ primes := fun a member =>
    known.implicants_subset_primes a (smaller member)
  have back : (select primes minterms).positions Q ⊆ C := by
    have inside := Selection.positions_mono (s := select primes minterms) smaller
    rwa [known.positions_implicants (Covering.lt_of_minimal_covers minimal)] at inside
  have whole := minimal.le_of_le (known.covers_positions prime spans) back
  exact Selection.implicants_subset (known.essential_mem prime spans) whole

/-- The candidates in an irredundant cover are an irredundant choice. -/
theorem minimal_positions (known : ListsPrimes minterms primes) (prime : ∀ a ∈ P, a ∈ primes)
    (minimal : Minimal (Spans minterms) P) :
    Minimal (Covering.Covers (select primes minterms).uncovered
      (select primes minterms).candidates) ((select primes minterms).positions P) := by
  refine ⟨known.covers_positions prime minimal.prop, fun D covers smaller => ?_⟩
  have inside : (select primes minterms).implicants D ⊆ P :=
    Selection.implicants_subset (known.essential_mem prime minimal.prop) smaller
  have whole := Selection.positions_mono (s := select primes minterms)
    (minimal.le_of_le (spans_implicants covers) inside)
  rwa [known.positions_implicants fun i chosen => ?_] at whole
  obtain ⟨a, -, found⟩ := Selection.mem_positions.mp (smaller chosen)
  exact (List.getElem?_eq_some_iff.mp found).1

/-- **The irredundant covers are those of the irredundant choices.** -/
theorem isIrredundantCover_iff_exists (known : ListsPrimes minterms primes)
    (admitted : ∀ m ∈ minterms, n.admits m = true) :
    IsIrredundantCover n minterms P ↔
      ∃ C, Minimal (Covering.Covers (select primes minterms).uncovered
        (select primes minterms).candidates) C ∧ (select primes minterms).implicants C = P := by
  rw [isIrredundantCover_iff_minimal admitted]
  simp only [← known.mem_iff]
  constructor
  · rintro ⟨prime, minimal⟩
    exact ⟨_, known.minimal_positions prime minimal, known.implicants_positions prime minimal.prop⟩
  · rintro ⟨C, minimal, rfl⟩
    exact ⟨known.implicants_subset_primes, known.minimal_implicants minimal⟩

/-- Different irredundant choices stand for different covers. -/
theorem implicants_injOn (known : ListsPrimes minterms primes) :
    Set.InjOn (select primes minterms).implicants
      {C | Minimal (Covering.Covers (select primes minterms).uncovered
        (select primes minterms).candidates) C} := by
  intro C first D second same
  rw [← known.positions_implicants (Covering.lt_of_minimal_covers first), same,
    known.positions_implicants (Covering.lt_of_minimal_covers second)]

/-- What Petrick's method lists are the irredundant covers, each once. -/
theorem combinations_list_covers (known : ListsPrimes minterms primes)
    (admitted : ∀ m ∈ minterms, n.admits m = true) {budget : Option Nat}
    {combinations : List IndexSet}
    (answered : Covering.irredundant (select primes minterms).uncovered
      (select primes minterms).candidates budget = .ok combinations) :
    (∀ C ∈ combinations, ∀ i ∈ C.members, i < (select primes minterms).candidates.length) ∧
      (combinations.map fun C => (select primes minterms).implicants C.members).Nodup ∧
      ∀ P, P ∈ combinations.map (fun C => (select primes minterms).implicants C.members) ↔
        IsIrredundantCover n minterms P := by
  obtain ⟨once, listed⟩ := Covering.irredundant_ok answered
  have stand : combinations.map (fun C => (select primes minterms).implicants C.members) =
      (combinations.map (·.members)).map (select primes minterms).implicants := by
    rw [List.map_map]
    rfl
  rw [stand]
  refine ⟨fun C member => Covering.lt_of_irredundant answered member, ?_, fun P => ?_⟩
  · refine List.Nodup.map_on (fun C first D second same => ?_) once
    exact known.implicants_injOn ((listed C).mp first) ((listed D).mp second) same
  · rw [List.mem_map, known.isIrredundantCover_iff_exists admitted]
    exact exists_congr fun C => and_congr_left fun _ => listed C

/-- If nothing is left to choose for, the essential implicants are all. -/
theorem isIrredundantCover_iff_essential (known : ListsPrimes minterms primes)
    (admitted : ∀ m ∈ minterms, n.admits m = true)
    (done : (select primes minterms).uncovered = []) :
    IsIrredundantCover n minterms P ↔ P = (select primes minterms).essential.toFinset := by
  have stand : (select primes minterms).implicants ∅ =
      (select primes minterms).essential.toFinset := by
    rw [Selection.implicants, Finset.biUnion_empty, Finset.union_empty]
  rw [known.isIrredundantCover_iff_exists admitted, done, ← stand]
  simp only [Covering.minimal_covers_nil, exists_eq_left, eq_comm]

end ListsPrimes

/-! ## What an exact run lists -/

/-- The selection that is made for the minterms of a request. -/
def selectionFor (n : Arity) (minterms : List Word) : Selection :=
  select (generate n (Ascending.ofList minterms)).primes (Ascending.ofList minterms)

/-- The selection that a run went on with. -/
def Trace.selection (t : Trace) : Selection := ⟨t.essential, t.candidates, t.uncovered⟩

/-- A function that is not constant is minimized by a choice. -/
theorem Course.exists_choice {config : Config} {n : Arity} {minterms : List Word}
    {r : Minimization} {t : Trace} (course : Course config n (Ascending.ofList minterms) r t)
    (inRange : ∀ m ∈ minterms, n.admits m = true) (proper : NotConstant n minterms) :
    ∃ choice, Covered config n (selectionFor n minterms) choice ∧
      t = .ofChoice n (Ascending.ofList minterms) choice := by
  obtain ⟨some, notAll⟩ := (notConstant_iff inRange).mp proper
  cases course with
  | never none => exact absurd none some
  | always _ all => exact absurd all notAll
  | proper _ _ covered _ => exact ⟨_, covered, rfl⟩

/-- **The combinations are the irredundant prime covers.** When a run of a function that is
not constant did not choose greedily, its combinations, each together with the essential
implicants, are all the irredundant covers by prime implicants, each once. When the
essential implicants leave nothing, they are the only such cover. -/
theorem minimizeTraced_lists_covers (config : Config) (minterms : List Word) (n : Arity)
    (r : Minimization) (t : Trace) (answered : minimizeTraced config minterms n.size = .ok (r, t))
    (exact : t.greedy = false) (proper : NotConstant n minterms) :
    (t.uncovered ≠ [] →
      (∀ C ∈ t.combinations, ∀ i ∈ C.members, i < t.candidates.length) ∧
      (t.combinations.map fun C => t.selection.implicants C.members).Nodup ∧
      ∀ P, P ∈ t.combinations.map (fun C => t.selection.implicants C.members) ↔
        IsIrredundantCover n minterms P) ∧
    (t.uncovered = [] → ∀ P, IsIrredundantCover n minterms P ↔ P = t.essential.toFinset) := by
  obtain ⟨-, inRange, course⟩ := minimizeTraced_eq_ok_iff.mp answered
  have listed (x : Word) : x ∈ Ascending.ofList minterms ↔ x ∈ minterms := Ascending.mem_ofList
  simp only [← isIrredundantCover_congr listed]
  obtain ⟨choice, covered, rfl⟩ := course.exists_choice inRange proper
  have known := listsPrimes_ofList inRange
  have admitted := admits_ofList inRange
  refine ⟨fun left => ?_, fun done P => known.isIrredundantCover_iff_essential admitted done⟩
  cases covered with
  | nothing done => exact absurd done left
  | cheapest _ found _ => exact known.combinations_list_covers admitted found
  | greedy _ _ _ _ => cases exact

/-- Six minterms in a ring and eleven apart from them: five irredundant covers, each with the
implicant of eleven. Three corners of a square have only one. -/
theorem minimizeTraced_lists_covers_ring :
    (∃ r t, minimizeTraced {} [0, 1, 2, 5, 6, 7, 11] 4 = .ok (r, t) ∧ t.greedy = false ∧
      t.uncovered ≠ [] ∧ t.combinations.length = 5 ∧
      ∀ P, IsIrredundantCover ⟨4, by decide⟩ [0, 1, 2, 5, 6, 7, 11] P →
        Implicant.ofMinterm 11 ∈ P) ∧
    ∃! P, IsIrredundantCover ⟨2, by decide⟩ [3, 0, 1] P := by
  constructor
  · obtain ⟨r, t, answered, exact, left, length, essential⟩ : ∃ r t,
        minimizeTraced {} [0, 1, 2, 5, 6, 7, 11] 4 = .ok (r, t) ∧ t.greedy = false ∧
          t.uncovered ≠ [] ∧ t.combinations.length = 5 ∧ Implicant.ofMinterm 11 ∈ t.essential :=
      ⟨_, _, rfl, rfl, by decide, rfl, by decide⟩
    obtain ⟨-, -, covers⟩ := (minimizeTraced_lists_covers {} [0, 1, 2, 5, 6, 7, 11] ⟨4, by decide⟩
      r t answered exact ⟨⟨0, by decide⟩, 3, by decide, by decide⟩).1 left
    refine ⟨r, t, answered, exact, left, length, fun P irredundant => ?_⟩
    obtain ⟨C, -, rfl⟩ := List.mem_map.mp ((covers P).mpr irredundant)
    exact Selection.mem_implicants.mpr (.inl essential)
  · obtain ⟨r, t, answered, exact, done⟩ : ∃ r t,
        minimizeTraced {} [3, 0, 1] 2 = .ok (r, t) ∧ t.greedy = false ∧ t.uncovered = [] :=
      ⟨_, _, rfl, rfl, rfl⟩
    have only := (minimizeTraced_lists_covers {} [3, 0, 1] ⟨2, by decide⟩ r t answered exact
      ⟨⟨0, by decide⟩, 2, by decide, by decide⟩).2 done
    exact ⟨_, (only _).mpr rfl, fun P irredundant => (only P).mp irredundant⟩

end TwoLevel
