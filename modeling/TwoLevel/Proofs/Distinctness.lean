/-
# TwoLevel.Proofs.Distinctness — implicants with the same key are the same

Repetitions are dropped by minterms and mask alone, so that an implicant that is dropped could
have another base than the one that is kept. For implicants over one number of variables this
does not happen, not even if their minterms have bits beyond it, where a base no longer is the
conjunction of the minterms: a single minterm is its own base, with nothing eliminated, while
every combination eliminates a position and takes its base from the minterms
(`Implicant.GrownOver.base_cases`). So the key decides the implicant
(`Implicant.GrownOver.eq_of_key_eq`), and what `distinct` drops is there already
(`distinct_exact`).
-/
import TwoLevel.Proofs.Repetition

namespace TwoLevel

set_option autoImplicit false

namespace Implicant

variable {n : Arity} {a b : Implicant}

/-- Implicants that come from any words by combination over `n`, those with bits beyond the
variables included. -/
inductive GrownOver (n : Arity) : Implicant → Prop
  | ofMinterm (m : Word) : GrownOver n (ofMinterm m)
  | combine {a b e : Implicant} (left : GrownOver n a) (right : GrownOver n b)
      (merged : a.combine b n = some e) : GrownOver n e

theorem popCount_of_differingBit {w : Word} (found : a.differingBit b n = some w) :
    w.popCount = 1 := by
  unfold differingBit at found
  split at found
  · split at found
    · next one => exact Option.some.inj found ▸ one
    · cases found
  · cases found

/-- A combination eliminates a position, and its base is the conjunction of its minterms among
the variables. -/
theorem mask_base_of_combine {e : Implicant} (merged : a.combine b n = some e) :
    e.mask ≠ 0 ∧ e.base = e.minterms.foldl (· &&& ·) n.mask := by
  unfold Implicant.combine at merged
  split at merged
  · cases merged
  · next position found =>
    obtain rfl := Option.some.inj merged
    refine ⟨fun none => ?_, rfl⟩
    obtain ⟨p, below, rfl⟩ := Word.popCount_eq_one_iff.mp (popCount_of_differingBit found)
    have bit := congrArg (Word.bit · p) none
    simp [Word.bit_single below] at bit

namespace GrownOver

/-- The base of a single minterm is this minterm, that of a combination comes from all. -/
theorem base_cases (grown : a.GrownOver n) :
    (a.mask = 0 ∧ a.minterms = [a.base]) ∨
      (a.mask ≠ 0 ∧ a.base = a.minterms.foldl (· &&& ·) n.mask) := by
  cases grown with
  | ofMinterm m => exact .inl ⟨rfl, rfl⟩
  | combine left right merged => exact .inr (mask_base_of_combine merged)

theorem eq_of_key_eq (first : a.GrownOver n) (second : b.GrownOver n) (same : a.key = b.key) :
    a = b := by
  obtain ⟨minterms, mask⟩ := Prod.mk.inj same
  have base : a.base = b.base := by
    rcases first.base_cases with ⟨none, single⟩ | ⟨some, base⟩
    · rcases second.base_cases with ⟨-, single'⟩ | ⟨some', -⟩
      · rw [minterms, single'] at single
        exact (List.cons.inj single).1.symm
      · exact absurd (mask ▸ none) some'
    · rcases second.base_cases with ⟨none', -⟩ | ⟨-, base'⟩
      · exact absurd (mask.trans none') some
      · rw [base, base', minterms]
  exact Implicant.ext minterms mask base

end GrownOver

end Implicant

theorem distinct_append (implicants more : List Implicant) :
    distinct (implicants ++ more) = distinct implicants ++
      (distinct more).filter fun a => decide (a.key ∉ implicants.map (·.key)) := by
  rw [distinct_eq_firstsBy, distinct_eq_firstsBy, distinct_eq_firstsBy, firstsBy_append]
  congr 1
  exact List.filter_congr fun a _ => decide_eq_decide.mpr Iff.rfl

/-- Where nothing is lost the value of the sum stays the same. -/
theorem coverEval_distinct {implicants : List Implicant}
    (all : ∀ a, a ∈ distinct implicants ↔ a ∈ implicants) (x : Word) :
    coverEval (distinct implicants) x = coverEval implicants x := by
  rw [Bool.eq_iff_iff, coverEval, coverEval, List.any_eq_true, List.any_eq_true]
  exact exists_congr fun a => and_congr_left fun _ => all a

/-- **Dropping repetitions.** What is left of a list of implicants over one number of variables
are, in order, the entries at the positions where their key is new. Every entry is the same, in
all fields, as one at such a position, its own or an earlier one. Dropping repetitions again
changes nothing. With more implicants behind the list, those of them are left as well that would
be left of these alone and whose key is not in the list. The sum of what is left has the value of
the sum of the list on every word. -/
theorem distinct_exact (n : Arity) (implicants : List Implicant)
    (grown : ∀ a ∈ implicants, a.GrownOver n) :
    distinct implicants = firstsBy Implicant.key implicants ∧
    (∀ (i : Nat) (a : Implicant), implicants[i]? = some a →
      ∃ j ≤ i, implicants[j]? = some a ∧ ∀ b ∈ implicants.take j, b.key ≠ a.key) ∧
    distinct (distinct implicants) = distinct implicants ∧
    (∀ more : List Implicant, distinct (implicants ++ more) = distinct implicants ++
      (distinct more).filter fun a => decide (a.key ∉ implicants.map (·.key))) ∧
    ∀ x : Word, coverEval (distinct implicants) x = coverEval implicants x := by
  have decides : ∀ a ∈ implicants, ∀ b ∈ implicants, b.key = a.key → b = a :=
    fun a left b right same => (grown b right).eq_of_key_eq (grown a left) same
  refine ⟨distinct_eq_firstsBy implicants, fun i a here => ?_,
    distinct_eq_self_of_keys (distinct_keys implicants), distinct_append implicants,
    coverEval_distinct fun a => mem_distinct_of_decides decides⟩
  obtain ⟨j, early, b, there, same, first⟩ := exists_first Implicant.key here
  have own : b = a :=
    decides a (List.mem_of_getElem? here) b (List.mem_of_getElem? there) same
  rw [own] at there first
  exact ⟨j, early, there, first⟩

/-- Two variables and words beyond them: the square of `4` to `7` is reached by rows and by
columns, and the second one is dropped. -/
theorem distinct_exact_square :
    ∃ rows columns : Implicant, rows.GrownOver ⟨2, by decide⟩ ∧ columns.GrownOver ⟨2, by decide⟩ ∧
      rows.minterms = [4, 5, 6, 7] ∧ columns.minterms = [4, 5, 6, 7] ∧
      distinct [rows, .ofMinterm 9, columns] = [rows, .ofMinterm 9] ∧
      (∃ j ≤ 2, [rows, .ofMinterm 9, columns][j]? = some columns ∧
        ∀ b ∈ [rows, .ofMinterm 9, columns].take j, b.key ≠ columns.key) ∧
      coverEval (distinct [rows, .ofMinterm 9, columns]) 5 =
        coverEval [rows, .ofMinterm 9, columns] 5 := by
  let n : Arity := ⟨2, by decide⟩
  have pair (x y : Word) (e : Implicant)
      (merged : (Implicant.ofMinterm x).combine (.ofMinterm y) n = some e) : e.GrownOver n :=
    .combine (.ofMinterm x) (.ofMinterm y) merged
  have rows : Implicant.GrownOver n ⟨[4, 5, 6, 7], 3, 0⟩ :=
    .combine (pair 4 5 ⟨[4, 5], 1, 0⟩ (by decide)) (pair 6 7 ⟨[6, 7], 1, 2⟩ (by decide)) (by decide)
  have columns : Implicant.GrownOver n ⟨[4, 5, 6, 7], 3, 0⟩ :=
    .combine (pair 4 6 ⟨[4, 6], 2, 0⟩ (by decide)) (pair 5 7 ⟨[5, 7], 2, 1⟩ (by decide)) (by decide)
  have grown : ∀ a ∈ [⟨[4, 5, 6, 7], 3, 0⟩, .ofMinterm 9, ⟨[4, 5, 6, 7], 3, 0⟩],
      Implicant.GrownOver n a :=
    List.forall_mem_cons.mpr ⟨rows, List.forall_mem_cons.mpr
      ⟨.ofMinterm 9, List.forall_mem_singleton.mpr columns⟩⟩
  obtain ⟨kept, whole, -, -, value⟩ := distinct_exact n _ grown
  exact ⟨_, _, rows, columns, rfl, rfl, kept.trans (by decide), whole 2 _ rfl, value 5⟩

end TwoLevel
