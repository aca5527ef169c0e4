/-
# TwoLevel.Proofs.Pricing — the cheapest combination, ranked by pairs and by numbers

Combinations are ranked by their number of terms and then by their number of literals. The
documented number for a cost, a thousand for each term and one for each literal, ranks alike
as long as there are fewer than a thousand literals (`Cost.weighted_lt_iff`), also in 64-bit
arithmetic while nothing overflows (`Cost.weightedWord_le_iff`).

`IsFirstLeast` says that a position is the first one whose entry has the least rank. A scan
that replaces its best entry only by a better one finds that position
(`IsFirstBest.exists_isFirstLeast`), and ranks that compare alike have it in common
(`IsFirstLeast.congr`). With the price of a combination read off its members
(`Cost.of_eq_ofMembers`) the rankings choose the same combination (`choose_exact`).
-/
import Mathlib.Algebra.BigOperators.Group.Finset.Basic
import Mathlib.Data.Prod.Lex
import Mathlib.Order.Bounds.Basic
import TwoLevel.Proofs.Members
import TwoLevel.Proofs.Preference

namespace TwoLevel

set_option autoImplicit false

/-! ## The first position of least rank -/

section FirstLeast

variable {α β γ : Type}

/-- The first position of a list whose entry has the least rank. -/
def IsFirstLeast [LE β] (rank : α → β) (entries : List α) (i : Nat) : Prop :=
  IsLeast {i | ∃ x, entries[i]? = some x ∧ ∀ y ∈ entries, rank x ≤ rank y} i

/-- To be less is to be preferred by rank. -/
theorem ranks_lt [LinearOrder β] : Ranks fun x y : β => x < y where
  irrefl x := lt_irrefl x
  trans _ _ _ := lt_trans
  between x y _ less := (lt_or_ge x y).imp_right fun above => lt_of_le_of_lt above less

/-- A scan by rank finds the first position of least rank. -/
theorem IsFirstBest.exists_isFirstLeast [LinearOrder β] {rank : α → β} {entries : List α} {x : α}
    (found : IsFirstBest (fun x y => rank x < rank y) entries x) :
    ∃ i, entries[i]? = some x ∧ IsFirstLeast rank entries i := by
  obtain ⟨i, here, none, earlier⟩ := found.exists_position (ranks_lt.comap rank)
  refine ⟨i, here, ⟨x, here, fun y member => not_lt.mp (none y member)⟩, ?_⟩
  rintro j ⟨y, there, least⟩
  by_contra later
  have less := earlier j (not_le.mp later) y there
  exact not_lt.mpr (least x (List.mem_of_getElem? here)) less

/-- Ranks that compare the entries alike have the same first position. -/
theorem IsFirstLeast.congr [LE β] [LE γ] {rank : α → β} {other : α → γ}
    {entries : List α} {i : Nat}
    (alike : ∀ x ∈ entries, ∀ y ∈ entries, rank x ≤ rank y ↔ other x ≤ other y)
    (first : IsFirstLeast rank entries i) : IsFirstLeast other entries i := by
  have same : {i : Nat | ∃ x, entries[i]? = some x ∧ ∀ y ∈ entries, rank x ≤ rank y} =
      {i : Nat | ∃ x, entries[i]? = some x ∧ ∀ y ∈ entries, other x ≤ other y} := by
    ext j
    refine exists_congr fun x => and_congr_right fun there => forall₂_congr fun y member => ?_
    exact alike x (List.mem_of_getElem? there) y member
  unfold IsFirstLeast at first ⊢
  rwa [← same]

end FirstLeast

/-! ## Costs -/

namespace Cost

variable {a b c : Cost}

/-- A cost as a pair in lexicographic order. -/
def rank (c : Cost) : ℕ ×ₗ ℕ := toLex (c.terms, c.literals)

/-- The cost as one number, in 64-bit arithmetic. -/
def weightedWord (c : Cost) : Word := UInt64.ofNat c.terms * 1000 + UInt64.ofNat c.literals

theorem rank_lt_rank : a.rank < b.rank ↔ a < b := by
  simp only [rank, Prod.Lex.toLex_lt_toLex, lt_iff]

/-- With fewer than a thousand literals a term outweighs all of them. -/
theorem weighted_lt_iff (small : a.literals < 1000) (few : b.literals < 1000) :
    a.weighted < b.weighted ↔ a < b := by
  simp only [weighted, lt_iff]
  omega

theorem weighted_le_iff (small : a.literals < 1000) (few : b.literals < 1000) :
    a.weighted ≤ b.weighted ↔ a.rank ≤ b.rank := by
  rw [← not_lt, ← not_lt, weighted_lt_iff few small, rank_lt_rank]

theorem weighted_inj (small : a.literals < 1000) (few : b.literals < 1000) :
    a.weighted = b.weighted ↔ a = b := by
  constructor
  · intro same
    cases a
    cases b
    simp only [weighted, mk.injEq] at same small few ⊢
    omega
  · rintro rfl
    rfl

theorem compare_weighted (small : a.literals < 1000) (few : b.literals < 1000) :
    compare a.weighted b.weighted = compare a b := by
  show compareOfLessAndEq a.weighted b.weighted = compareOfLessAndEq a b
  simp only [compareOfLessAndEq, weighted_lt_iff small few, weighted_inj small few]

/-- The number that 64 bits hold is the cost's, if it fits. -/
theorem toNat_weightedWord (fits : c.weighted < 2 ^ 64) : c.weightedWord.toNat = c.weighted := by
  simp only [weighted, weightedWord] at fits ⊢
  simp only [UInt64.toNat_add, UInt64.toNat_mul, UInt64.toNat_ofNat']
  have thousand : (1000 : UInt64).toNat = 1000 := rfl
  rw [thousand]
  omega

theorem weightedWord_le_iff (fits : a.weighted < 2 ^ 64) (fitsToo : b.weighted < 2 ^ 64) :
    a.weightedWord ≤ b.weightedWord ↔ a.weighted ≤ b.weighted := by
  rw [UInt64.le_iff_toNat_le, toNat_weightedWord fits, toNat_weightedWord fitsToo]

theorem compare_weightedWord (fits : a.weighted < 2 ^ 64) (fitsToo : b.weighted < 2 ^ 64) :
    compare a.weightedWord b.weightedWord = compare a.weighted b.weighted := by
  show compareOfLessAndEq a.weightedWord b.weightedWord = compareOfLessAndEq a.weighted b.weighted
  simp only [compareOfLessAndEq, UInt64.lt_iff_toNat_lt, ← UInt64.toNat_inj,
    toNat_weightedWord fits, toNat_weightedWord fitsToo]

/-- The number of positions in a set, and the number of literals of the candidates there. -/
def ofMembers (n : Arity) (candidates : List Implicant) (positions : Finset Nat) : Cost where
  terms := positions.card
  literals := ∑ i ∈ positions, (candidates[i]?.map (·.literals n)).getD 0

section Of

variable {n : Arity} {candidates : List Implicant} {combination : IndexSet}

theorem ofTerms_pick (fits : combination.allBelow candidates.length = true) :
    ofTerms n (combination.pick candidates) = ofMembers n candidates combination.members := by
  have picked := IndexSet.map_some_pick fits
  have terms := congrArg List.length picked
  have literals := congrArg (List.map fun a => (a.map (·.literals n)).getD 0) picked
  simp only [List.length_map, IndexSet.length_toList] at terms
  simp only [List.map_map] at literals
  rw [ofTerms, ofMembers, mk.injEq, terms, IndexSet.card_members]
  refine ⟨rfl, ?_⟩
  rw [IndexSet.members, List.sum_toFinset _ combination.nodup_toList]
  exact congrArg List.sum literals

/-- The price of a combination of candidates counts its members and their literals. -/
theorem of_eq_ofMembers (fits : combination.allBelow candidates.length = true) :
    of n candidates combination = .ok (ofMembers n candidates combination.members) := by
  rw [of, if_pos fits, ofTerms_pick fits]

end Of

end Cost

/-- The chosen combination is at the first position of least cost. -/
theorem exists_choose_isFirstLeast {n : Arity} {candidates : List Implicant}
    {combinations : List IndexSet}
    (fits : ∀ C ∈ combinations, C.allBelow candidates.length = true) (some : combinations ≠ []) :
    ∃ i C, combinations[i]? = .some C ∧ choose n candidates combinations = .ok C ∧
      IsFirstLeast (fun C => (Cost.ofMembers n candidates C.members).rank) combinations i := by
  obtain ⟨C, answered⟩ := exists_choose (n := n) fits
  have best := choose_isFirstBest some answered
  have ranked : IsFirstBest
      (fun C D => (Cost.ofTerms n (C.pick candidates)).rank <
        (Cost.ofTerms n (D.pick candidates)).rank) combinations C := by
    simp only [Cost.rank_lt_rank]
    exact best
  obtain ⟨i, here, first⟩ := ranked.exists_isFirstLeast
  refine ⟨i, C, here, answered, first.congr fun D left E right => ?_⟩
  rw [Cost.ofTerms_pick (fits D left), Cost.ofTerms_pick (fits E right)]

/-- **The first of the cheapest.** Of a list of combinations of candidates the one at the first
position is chosen whose number of members and sum of literals are least in lexicographic order.
If all of these sums are below a thousand, this is also the first position where the weighted
cost is least, and where nothing overflows, the first where the 64 bits that hold it are: of any
two costs with fewer than a thousand literals the weighted costs compare as the costs do, and
differ if these differ, as numbers and, where nothing overflows, in 64 bits. -/
theorem choose_exact (n : Arity) (candidates : List Implicant) (combinations : List IndexSet)
    (within : ∀ C ∈ combinations, ∀ i, C.contains i = true → i < candidates.length)
    (some : combinations ≠ []) :
    (∀ C ∈ combinations,
      Cost.of n candidates C = .ok (Cost.ofMembers n candidates C.members)) ∧
    (∃ i C, combinations[i]? = .some C ∧ choose n candidates combinations = .ok C ∧
      IsFirstLeast (fun C => (Cost.ofMembers n candidates C.members).rank) combinations i ∧
      ((∀ C ∈ combinations, (Cost.ofMembers n candidates C.members).literals < 1000) →
        IsFirstLeast (fun C => (Cost.ofMembers n candidates C.members).weighted)
          combinations i ∧
        ((∀ C ∈ combinations, (Cost.ofMembers n candidates C.members).weighted < 2 ^ 64) →
          IsFirstLeast (fun C => (Cost.ofMembers n candidates C.members).weightedWord)
            combinations i))) ∧
    ∀ a b : Cost, a.literals < 1000 → b.literals < 1000 →
      compare a.weighted b.weighted = compare a b ∧ (a.weighted = b.weighted ↔ a = b) ∧
        (a.weighted < 2 ^ 64 → b.weighted < 2 ^ 64 →
          compare a.weightedWord b.weightedWord = compare a b) := by
  have fits : ∀ C ∈ combinations, C.allBelow candidates.length = true := by
    simpa only [IndexSet.allBelow_iff, IndexSet.mem_members] using within
  obtain ⟨i, C, here, answered, first⟩ := exists_choose_isFirstLeast (n := n) fits some
  refine ⟨fun D member => Cost.of_eq_ofMembers (fits D member),
    ⟨i, C, here, answered, first, fun small => ?_⟩,
    fun a b small few => ⟨Cost.compare_weighted small few, Cost.weighted_inj small few, ?_⟩⟩
  · have numbered : IsFirstLeast (fun C => (Cost.ofMembers n candidates C.members).weighted)
        combinations i := first.congr fun D left E right =>
      (Cost.weighted_le_iff (small D left) (small E right)).symm
    refine ⟨numbered, fun inWord => numbered.congr fun D left E right => ?_⟩
    exact (Cost.weightedWord_le_iff (inWord D left) (inWord E right)).symm
  · intro fitsLeft fitsRight
    rw [Cost.compare_weightedWord fitsLeft fitsRight, Cost.compare_weighted small few]

/-- Of two pairs of equal price behind a dearer single minterm the earlier one is chosen. -/
theorem choose_exact_tie :
    ∃ (candidates : List Implicant) (combinations : List IndexSet),
      candidates.map (·.minterms) = [[4, 5], [6, 7], [0]] ∧
      combinations.map (·.toList) = [[2], [0], [1], [0, 1]] ∧
      choose ⟨3, by decide⟩ candidates combinations = .ok (.ofList [0]) ∧
      IsFirstLeast (fun C => (Cost.ofMembers ⟨3, by decide⟩ candidates C.members).weighted)
        combinations 1 ∧
      IsFirstLeast (fun C => (Cost.ofMembers ⟨3, by decide⟩ candidates C.members).weightedWord)
        combinations 1 := by
  let candidates : List Implicant := [⟨[4, 5], 1, 4⟩, ⟨[6, 7], 1, 6⟩, .ofMinterm 0]
  let combinations : List IndexSet := [.ofList [2], .ofList [0], .ofList [1], .ofList [0, 1]]
  have within : ∀ C ∈ combinations, ∀ i, C.contains i = true → i < candidates.length := by
    intro C member i inside
    have fits : ∀ C ∈ combinations, C.allBelow 3 = true := by decide
    exact IndexSet.allBelow_iff.mp (fits C member) i (IndexSet.mem_members.mpr inside)
  have small : ∀ C ∈ combinations,
      (Cost.ofMembers ⟨3, by decide⟩ candidates C.members).literals < 1000 := by decide
  have inWord : ∀ C ∈ combinations,
      (Cost.ofMembers ⟨3, by decide⟩ candidates C.members).weighted < 2 ^ 64 := by decide
  obtain ⟨-, ⟨i, C, here, answered, -, numbered⟩, -⟩ :=
    choose_exact ⟨3, by decide⟩ candidates combinations within (by decide)
  have chosen : choose ⟨3, by decide⟩ candidates combinations = .ok (.ofList [0]) := rfl
  obtain rfl : IndexSet.ofList [0] = C := Except.ok.inj (chosen.symm.trans answered)
  have second : i = 1 := by
    have only : ∀ i < 4, (combinations.map (·.toList))[i]? = some [0] → i = 1 := by decide
    refine only i (List.getElem?_eq_some_iff.mp here).1 ?_
    rw [List.getElem?_map, here]
    decide
  refine ⟨candidates, combinations, rfl, by decide, chosen, ?_⟩
  rw [← second]
  exact ⟨(numbered small).1, (numbered small).2 inWord⟩

end TwoLevel
