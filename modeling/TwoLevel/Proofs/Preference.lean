/-
# TwoLevel.Proofs.Preference — the first of the most preferred

Twice a list is gone through for its best entry, once for offers and once for costs: an
entry replaces the best one so far only if it is preferred to it. `IsFirstBest` says what
that finds, `foldl_isFirstBest` that it is found whenever the preference orders entries
by some rank (`Ranks`). Preference among offers and among costs does.
-/
import TwoLevel.Cost
import TwoLevel.Covering.Greedy

namespace TwoLevel

set_option autoImplicit false

section Preference

variable {α : Type} {better : α → α → Prop}

/-- A preference by rank: of two entries with a third one between them in no way, the
third is on one side of either. -/
structure Ranks (better : α → α → Prop) : Prop where
  irrefl : ∀ x, ¬better x x
  trans : ∀ x y z, better x y → better y z → better x z
  between : ∀ x y z, better x z → better x y ∨ better y z

theorem Ranks.comap {β : Type} (ranks : Ranks better) (f : β → α) :
    Ranks fun x y => better (f x) (f y) where
  irrefl x := ranks.irrefl (f x)
  trans x y z := ranks.trans (f x) (f y) (f z)
  between x y z := ranks.between (f x) (f y) (f z)

/-- An entry of a list that is preferred to all earlier ones and to which no later one is
preferred. -/
def IsFirstBest (better : α → α → Prop) (entries : List α) (x : α) : Prop :=
  ∃ before after, entries = before ++ x :: after ∧ (∀ y ∈ before, better x y) ∧
    ∀ y ∈ after, ¬better y x

theorem IsFirstBest.mem {entries : List α} {x : α} (found : IsFirstBest better entries x) :
    x ∈ entries := by
  obtain ⟨before, after, rfl, -⟩ := found
  exact List.mem_append_right _ List.mem_cons_self

theorem IsFirstBest.not_better (ranks : Ranks better) {entries : List α} {x : α}
    (found : IsFirstBest better entries x) : ∀ y ∈ entries, ¬better y x := by
  obtain ⟨before, after, rfl, earlier, later⟩ := found
  intro y member preferred
  rcases List.mem_append.mp member with first | rest
  · exact ranks.irrefl x (ranks.trans x y x (earlier y first) preferred)
  · rcases List.mem_cons.mp rest with rfl | last
    · exact ranks.irrefl y preferred
    · exact later y last preferred

/-- One more entry. -/
theorem IsFirstBest.concat [DecidableRel better] (ranks : Ranks better) {entries : List α} {x : α}
    (found : IsFirstBest better entries x) (next : α) :
    IsFirstBest better (entries ++ [next]) (if better next x then next else x) := by
  obtain ⟨before, after, rfl, earlier, later⟩ := found
  split
  · rename_i preferred
    refine ⟨before ++ x :: after, [], rfl, fun y member => ?_, fun y member => by cases member⟩
    rcases List.mem_append.mp member with first | rest
    · exact ranks.trans next x y preferred (earlier y first)
    · rcases List.mem_cons.mp rest with rfl | last
      · exact preferred
      · exact (ranks.between next y x preferred).resolve_right (later y last)
  · rename_i kept
    refine ⟨before, after ++ [next], by rw [List.append_assoc, List.cons_append], earlier, ?_⟩
    intro y member
    rcases List.mem_append.mp member with old | new
    · exact later y old
    · exact List.mem_singleton.mp new ▸ kept

theorem foldl_isFirstBest [DecidableRel better] (ranks : Ranks better) (rest : List α) :
    ∀ {entries : List α} {x : α}, IsFirstBest better entries x →
      IsFirstBest better (entries ++ rest)
        (rest.foldl (fun best next => if better next best then next else best) x) := by
  induction rest with
  | nil =>
      intro entries x found
      rw [List.append_nil]
      exact found
  | cons next rest ih =>
      intro entries x found
      have step := ih (found.concat ranks next)
      rw [List.append_assoc] at step
      exact step

theorem isFirstBest_singleton (x : α) : IsFirstBest better [x] x := by
  refine ⟨[], [], rfl, fun y member => ?_, fun y member => ?_⟩ <;> cases member

/-- The best of the images is the image of the best. -/
theorem IsFirstBest.of_map {β : Type} {f : β → α} {entries : List β} {y : α}
    (found : IsFirstBest better (entries.map f) y) :
    ∃ x, f x = y ∧ IsFirstBest (fun a b => better (f a) (f b)) entries x := by
  obtain ⟨before, after, split, earlier, later⟩ := found
  obtain ⟨first, rest, rfl, rfl, others⟩ := List.map_eq_append_iff.mp split
  obtain ⟨x, last, rfl, rfl, rfl⟩ := List.map_eq_cons_iff.mp others
  exact ⟨x, rfl, first, last, rfl, fun a member => earlier _ (List.mem_map_of_mem member),
    fun a member => later _ (List.mem_map_of_mem member)⟩

/-- The first of the best entries, by its position. -/
theorem IsFirstBest.exists_position (ranks : Ranks better) {entries : List α} {x : α}
    (found : IsFirstBest better entries x) :
    ∃ i : Nat, entries[i]? = some x ∧ (∀ y ∈ entries, ¬better y x) ∧
      ∀ j < i, ∀ y, entries[j]? = some y → better x y := by
  have none := found.not_better ranks
  obtain ⟨before, after, rfl, earlier, -⟩ := found
  refine ⟨before.length, by simp, none, fun j less y here => ?_⟩
  rw [List.getElem?_append_left less] at here
  exact earlier y (List.mem_of_getElem? here)

end Preference

namespace Covering

theorem Offer.beats_iff {later earlier : Offer} :
    later.beats earlier = true ↔ earlier.gain < later.gain ∨
      (earlier.gain = later.gain ∧ later.literals < earlier.literals) := by
  simp only [beats, Bool.or_eq_true, Bool.and_eq_true, decide_eq_true_iff, beq_iff_eq]

theorem ranks_beats : Ranks fun later earlier : Offer => later.beats earlier = true := by
  refine ⟨fun x => ?_, fun x y z => ?_, fun x y z => ?_⟩ <;> simp only [Offer.beats_iff] <;> omega

theorem best?_isFirstBest {all : List Offer} {pick : Offer} (found : best? all = some pick) :
    IsFirstBest (fun later earlier : Offer => later.beats earlier = true) all pick := by
  cases all with
  | nil => cases found
  | cons first rest =>
      cases found
      exact foldl_isFirstBest ranks_beats rest (isFirstBest_singleton first)

end Covering

theorem Cost.lt_iff {a b : Cost} :
    a < b ↔ a.terms < b.terms ∨ (a.terms = b.terms ∧ a.literals < b.literals) := Iff.rfl

theorem ranks_cost : Ranks fun a b : Cost => a < b := by
  refine ⟨fun x => ?_, fun x y z => ?_, fun x y z => ?_⟩ <;> simp only [Cost.lt_iff] <;> omega

theorem Priced.cheapest?_isFirstBest {all : List Priced} {best : Priced}
    (found : cheapest? all = some best) :
    IsFirstBest (fun later earlier : Priced => later.cost < earlier.cost) all best := by
  cases all with
  | nil => cases found
  | cons first rest =>
      cases found
      exact foldl_isFirstBest (ranks_cost.comap Priced.cost) rest (isFirstBest_singleton first)

/-! ## The cheapest combination -/

section Choose

variable {n : Arity} {candidates : List Implicant} {combinations : List IndexSet}

theorem Priced.all_eq_ok_iff {priced : List Priced} :
    all n candidates combinations = .ok priced ↔
      (∀ c ∈ combinations, c.allBelow candidates.length = true) ∧
        combinations.map (fun c => ⟨c, Cost.ofTerms n (c.pick candidates)⟩) = priced := by
  induction combinations generalizing priced with
  | nil => simp [all]
  | cons combination rest ih =>
      rw [all, Cost.of]
      by_cases fits : combination.allBelow candidates.length = true
      · rw [if_pos fits]
        cases answer : all n candidates rest with
        | error misuse =>
            have none (others : List Priced) : all n candidates rest ≠ .ok others := by
              simp [answer]
            simp only [ne_eq, ih, not_and] at none
            simp only [reduceCtorEq, List.forall_mem_cons, false_iff, not_and]
            exact fun within => absurd rfl (none _ within.2)
        | ok others =>
            obtain ⟨within, rfl⟩ := ih.mp answer
            simp only [Except.ok.injEq, List.map_cons, List.forall_mem_cons]
            exact (and_iff_right ⟨fits, within⟩).symm
      · simp [fits]

/-- Combinations of positions of candidates have prices to choose by. -/
theorem exists_choose (fits : ∀ c ∈ combinations, c.allBelow candidates.length = true) :
    ∃ chosen, choose n candidates combinations = .ok chosen := by
  simp only [choose, Priced.all_eq_ok_iff.mpr ⟨fits, rfl⟩]
  split
  · exact ⟨_, rfl⟩
  · exact ⟨_, rfl⟩

/-- Whether one combination is cheaper than another. -/
def Cheaper (n : Arity) (candidates : List Implicant) (later earlier : IndexSet) : Prop :=
  Cost.ofTerms n (later.pick candidates) < Cost.ofTerms n (earlier.pick candidates)

/-- The first of the cheapest combinations is chosen, if there is a combination at all. -/
theorem choose_isFirstBest {chosen : IndexSet} (some : combinations ≠ [])
    (answered : choose n candidates combinations = .ok chosen) :
    IsFirstBest (Cheaper n candidates) combinations chosen := by
  rw [choose] at answered
  split at answered
  · cases answered
  · rename_i priced costs
    obtain ⟨-, rfl⟩ := Priced.all_eq_ok_iff.mp costs
    split at answered
    · rename_i none
      obtain ⟨first, rest, rfl⟩ := List.exists_cons_of_ne_nil some
      cases none
    · rename_i best found
      obtain ⟨x, rfl, isBest⟩ := (Priced.cheapest?_isFirstBest found).of_map
      cases answered
      exact isBest

theorem ranks_cheaper : Ranks (Cheaper n candidates) :=
  ranks_cost.comap fun combination : IndexSet => Cost.ofTerms n (combination.pick candidates)

end Choose

end TwoLevel
