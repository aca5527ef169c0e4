/-
# TwoLevel.Proofs.GreedyCover — the course of a greedy covering

An offer is a candidate that is not chosen and covers something that remains (`mem_offers`), and the
preferred offer is the best candidate there is to take next (`IsNext`): whatever else is not
chosen covers less, or as much with more literals, or neither and comes later.

`Runs` says what a covering does with no bound on the number of picks: it takes the next pick until
nothing remains, or until nothing that is left to take covers anything. Every pick leaves fewer
minterms, so the bound is never what ends the picks (`greedyFrom_runs`), and there is no other
course (`Runs.unique`). Everything else is an induction on the course:

* an answer has the picks as its members, each new, and their gains add up to what there was to
  cover (`Runs.answer`); it covers all that remained (`Runs.covers`);
* what was chosen covers nothing that remains (`Spent`), so a covering that gets stuck gets stuck
  before a minterm that no candidate covers, and this is the first such minterm of the list, as
  picks leave all of these (`Runs.error`). So greedy coverings fail as clauses do
  (`greedy_error_iff`);
* what a candidate covers of the rest never grows, so gains never grow (`Runs.antitone`);
* before each pick the earlier ones are chosen and what none of them covers remains
  (`Runs.isNext`).
-/
import Mathlib.Algebra.GroupWithZero.Nat
import TwoLevel.Minimizer
import TwoLevel.Proofs.Irredundance
import TwoLevel.Proofs.Preference

namespace TwoLevel

set_option autoImplicit false

namespace Covering

variable {n : Arity} {candidates : List Implicant} {chosen : IndexSet} {remaining : List Word}

/-! ## The next pick -/

theorem mem_offers {offer : Offer} :
    offer ∈ offers n candidates chosen remaining ↔
      candidates[offer.index]? = some offer.implicant ∧ offer.index ∉ chosen.members ∧
        offer.gain = gain remaining offer.implicant ∧ 0 < offer.gain ∧
        offer.literals = offer.implicant.literals n := by
  simp only [offers, List.mem_filterMap, Prod.exists, List.mem_zipIdx_iff_getElem?,
    IndexSet.mem_members, Bool.not_eq_true]
  constructor
  · rintro ⟨a, i, found, made⟩
    split at made
    · cases made
    · rename_i fresh
      split at made
      · cases made
      · rename_i gains
        cases made
        exact ⟨found, Bool.eq_false_iff.mpr fresh, rfl, Nat.pos_of_ne_zero gains, rfl⟩
  · rintro ⟨found, fresh, gains, positive, literals⟩
    refine ⟨offer.implicant, offer.index, found, ?_⟩
    rw [fresh, if_neg Bool.false_ne_true, if_neg (gains ▸ Nat.pos_iff_ne_zero.mp positive), ← gains,
      ← literals]

/-- A candidate that is not chosen and covers something is on offer. -/
theorem offer_mem_offers {i : Nat} {a : Implicant} (listed : candidates[i]? = some a)
    (free : i ∉ chosen.members) (gains : 0 < gain remaining a) :
    (⟨i, a, gain remaining a, a.literals n⟩ : Offer) ∈ offers n candidates chosen remaining :=
  mem_offers.mpr ⟨listed, free, rfl, gains, rfl⟩

theorem pairwise_offers :
    (offers n candidates chosen remaining).Pairwise fun x y => x.index < y.index := by
  have index_eq {e : Implicant × Nat} {offer : Offer}
      (made : (if chosen.contains e.2 then none
        else if gain remaining e.1 = 0 then none
        else some (⟨e.2, e.1, gain remaining e.1, e.1.literals n⟩ : Offer)) = some offer) :
      offer.index = e.2 := by
    split at made
    · cases made
    · split at made
      · cases made
      · cases made
        rfl
  have positions : candidates.zipIdx.Pairwise fun e f => e.2 < f.2 := by
    refine List.pairwise_map.mp ?_
    rw [List.zipIdx_map_snd]
    exact List.pairwise_lt_range'
  refine List.Pairwise.filterMap _ (fun e f less x left y right => ?_) positions
  rw [index_eq left, index_eq right]
  exact less

/-- Of the candidates not chosen yet, the pick covers the most of what remains; of several, it has
the fewest literals, and of those it is the first. -/
structure IsNext (n : Arity) (candidates : List Implicant) (chosen : Finset Nat)
    (remaining : List Word) (pick : Offer) : Prop where
  candidate : candidates[pick.index]? = some pick.implicant
  fresh : pick.index ∉ chosen
  gain_eq : pick.gain = gain remaining pick.implicant
  literals_eq : pick.literals = pick.implicant.literals n
  positive : 0 < pick.gain
  best : ∀ i a, candidates[i]? = some a → i ∉ chosen → i ≠ pick.index →
    gain remaining a < pick.gain ∨ gain remaining a = pick.gain ∧
      (pick.literals < a.literals n ∨ pick.literals = a.literals n ∧ pick.index < i)

theorem isNext_of_best? {pick : Offer}
    (found : best? (offers n candidates chosen remaining) = some pick) :
    IsNext n candidates chosen.members remaining pick := by
  have isBest := best?_isFirstBest found
  obtain ⟨candidate, fresh, gain_eq, positive, literals_eq⟩ := mem_offers.mp isBest.mem
  refine ⟨candidate, fresh, gain_eq, literals_eq, positive, fun i a listed free other => ?_⟩
  rcases Nat.eq_zero_or_pos (gain remaining a) with nothing | gains
  · exact .inl (nothing ▸ positive)
  -- the candidate is on offer too, before the pick or after it
  have offered := offer_mem_offers (n := n) listed free gains
  obtain ⟨before, after, split, earlier, later⟩ := isBest
  have ascending : (offers n candidates chosen remaining).Pairwise fun x y => x.index < y.index :=
    pairwise_offers
  rw [split] at offered ascending
  rcases List.mem_append.mp offered with first | rest
  · rcases Offer.beats_iff.mp (earlier _ first) with more | ⟨same, fewer⟩
    · exact .inl more
    · exact .inr ⟨same, .inl fewer⟩
  · rcases List.mem_cons.mp rest with rfl | last
    · exact absurd rfl other
    · have kept : ¬(pick.gain < gain remaining a ∨
          pick.gain = gain remaining a ∧ a.literals n < pick.literals) :=
        fun more => later _ last (Offer.beats_iff.mpr more)
      have above : pick.index < i :=
        List.rel_of_pairwise_cons (List.pairwise_append.mp ascending).2.1 last
      have order : gain remaining a < pick.gain ∨ gain remaining a = pick.gain ∧
          pick.literals ≤ a.literals n := by omega
      refine order.imp_right fun ⟨same, fewer⟩ => ⟨same, ?_⟩
      exact (Nat.lt_or_eq_of_le fewer).imp_right fun equal => ⟨equal, above⟩

theorem IsNext.gain_pos {C : Finset Nat} {pick : Offer}
    (next : IsNext n candidates C remaining pick) : 0 < gain remaining pick.implicant :=
  next.gain_eq ▸ next.positive

theorem IsNext.unique {C : Finset Nat} {pick other : Offer}
    (next : IsNext n candidates C remaining pick)
    (again : IsNext n candidates C remaining other) : pick = other := by
  have same : pick.index = other.index := by
    by_contra differ
    have first := next.best _ _ again.candidate again.fresh (Ne.symm differ)
    have second := again.best _ _ next.candidate next.fresh differ
    rw [← again.gain_eq, ← again.literals_eq] at first
    rw [← next.gain_eq, ← next.literals_eq] at second
    omega
  have implicant : pick.implicant = other.implicant :=
    Option.some.inj (next.candidate.symm.trans (same ▸ again.candidate))
  have gains : pick.gain = other.gain := by rw [next.gain_eq, again.gain_eq, implicant]
  have literals : pick.literals = other.literals := by
    rw [next.literals_eq, again.literals_eq, implicant]
  cases pick
  cases other
  simp_all

/-! ## The course of the picks -/

/-- The course of a covering that goes on while something remains that a candidate not chosen yet
covers. -/
inductive Runs (n : Arity) (candidates : List Implicant) :
    IndexSet → List Word → GreedyCovering → Prop
  | covered (chosen : IndexSet) : Runs n candidates chosen [] ⟨[], .ok chosen⟩
  | stuck {chosen : IndexSet} {first : Word} {others : List Word}
      (useless : ∀ i a, candidates[i]? = some a → i ∉ chosen.members →
        gain (first :: others) a = 0) :
      Runs n candidates chosen (first :: others) ⟨[], .error (.uncoverable first)⟩
  | take {chosen : IndexSet} {remaining : List Word} {pick : Offer} {later : GreedyCovering}
      (next : IsNext n candidates chosen.members remaining pick)
      (rest : Runs n candidates (chosen.insert pick.index)
        (remaining.filter fun m => !pick.implicant.covers m) later) :
      Runs n candidates chosen remaining ⟨pick :: later.picks, later.outcome⟩

/-- What a candidate covers and what it leaves. -/
theorem length_filter_add_gain (remaining : List Word) (a : Implicant) :
    (remaining.filter fun m => !a.covers m).length + gain remaining a = remaining.length := by
  rw [← List.countP_eq_length_filter, gain, List.length_eq_countP_add_countP a.covers, Nat.add_comm]
  congr 1
  refine List.countP_congr fun m _ => ?_
  simp

theorem gain_filter_le (remaining : List Word) (p : Word → Bool) (a : Implicant) :
    gain (remaining.filter p) a ≤ gain remaining a :=
  List.filter_sublist.countP_le

theorem IsNext.length_lt {C : Finset Nat} {pick : Offer}
    (next : IsNext n candidates C remaining pick) :
    (remaining.filter fun m => !pick.implicant.covers m).length < remaining.length := by
  have whole := length_filter_add_gain remaining pick.implicant
  have positive := next.gain_pos
  omega

theorem best?_eq_none {all : List Offer} (none : best? all = .none) : all = [] := by
  cases all with
  | nil => rfl
  | cons first rest => cases none

/-- The bound is never what ends the picks, if it is not less than the number of minterms. -/
theorem greedyFrom_runs {limit : Nat} (enough : remaining.length ≤ limit) :
    Runs n candidates chosen remaining (greedyFrom n candidates limit chosen remaining) := by
  induction limit generalizing chosen remaining with
  | zero =>
      obtain rfl := List.length_eq_zero_iff.mp (Nat.le_zero.mp enough)
      exact .covered chosen
  | succ limit ih =>
      cases remaining with
      | nil => exact .covered chosen
      | cons first others =>
          rw [greedyFrom]
          split
          · rename_i nothing
            refine .stuck fun i a listed free => ?_
            by_contra gains
            have offered := offer_mem_offers (n := n) listed free (Nat.pos_of_ne_zero gains)
            rw [best?_eq_none nothing] at offered
            cases offered
          · rename_i pick found
            have next := isNext_of_best? found
            have fewer := next.length_lt
            exact .take next (ih (by omega))

theorem greedyCovering_runs (n : Arity) (uncovered : List Word) (candidates : List Implicant) :
    Runs n candidates (IndexSet.withCapacity candidates.length) uncovered
      (greedyCovering n uncovered candidates) :=
  greedyFrom_runs (Nat.le_refl _)

namespace Runs

variable {course : GreedyCovering}

/-- There is only one course. -/
theorem unique {other : GreedyCovering} (run : Runs n candidates chosen remaining course)
    (again : Runs n candidates chosen remaining other) : course = other := by
  induction run generalizing other with
  | covered chosen =>
      cases again with
      | covered => rfl
      | take next rest => exact absurd next.gain_pos (Nat.lt_irrefl 0)
  | stuck useless =>
      cases again with
      | stuck => rfl
      | take next rest =>
          exact absurd (useless _ _ next.candidate next.fresh) next.gain_pos.ne'
  | take next rest ih =>
      cases again with
      | covered => exact absurd next.gain_pos (Nat.lt_irrefl 0)
      | stuck useless => exact absurd (useless _ _ next.candidate next.fresh) next.gain_pos.ne'
      | take next' rest' =>
          obtain rfl := next.unique next'
          rw [ih rest']

/-- An answer has the picks as its new members, and their gains add up to all that remained. -/
theorem answer {final : IndexSet} (run : Runs n candidates chosen remaining course)
    (answered : course.outcome = .ok final) :
    final.members = chosen.members ∪ (course.picks.map (·.index)).toFinset ∧
      final.size = chosen.size + course.picks.length ∧
      (course.picks.map (·.gain)).sum = remaining.length := by
  induction run with
  | covered chosen =>
      cases answered
      simp
  | stuck => cases answered
  | @take chosen remaining pick later next rest ih =>
      obtain ⟨members, size, sum⟩ := ih answered
      have grown : (chosen.insert pick.index).size = chosen.size + 1 := by
        rw [← IndexSet.card_members, ← IndexSet.card_members, IndexSet.members_insert,
          Finset.card_insert_of_notMem next.fresh]
      have whole := length_filter_add_gain remaining pick.implicant
      refine ⟨?_, ?_, ?_⟩
      · rw [members, IndexSet.members_insert, List.map_cons, List.toFinset_cons,
          Finset.insert_union, Finset.union_insert]
      · rw [size, grown, List.length_cons]
        omega
      · rw [List.map_cons, List.sum_cons, sum, next.gain_eq]
        omega

/-- Every pick is the candidate at its position and covers something. -/
theorem mem_picks {pick : Offer} (run : Runs n candidates chosen remaining course)
    (picked : pick ∈ course.picks) :
    candidates[pick.index]? = some pick.implicant ∧ 0 < pick.gain := by
  induction run with
  | covered chosen => cases picked
  | stuck => cases picked
  | take next rest ih =>
      rcases List.mem_cons.mp picked with rfl | later
      · exact ⟨next.candidate, next.positive⟩
      · exact ih later

end Runs

/-- What is left after a candidate and the candidate together. -/
theorem Covers.of_filter {C : Finset Nat} {i : Nat} {a : Implicant}
    (known : candidates[i]? = some a) (member : i ∈ C)
    (later : Covers (remaining.filter fun m => !a.covers m) candidates C) :
    Covers remaining candidates C := by
  intro m listed
  cases covers : a.covers m with
  | true => exact ⟨i, member, a, known, covers⟩
  | false => exact later m (List.mem_filter.mpr ⟨listed, by rw [covers]; rfl⟩)

theorem Runs.covers {course : GreedyCovering} {final : IndexSet}
    (run : Runs n candidates chosen remaining course) (answered : course.outcome = .ok final) :
    Covers remaining candidates final.members := by
  induction run with
  | covered chosen => exact fun m listed => by cases listed
  | stuck => cases answered
  | take next rest ih =>
      have inside := (rest.answer answered).1
      rw [IndexSet.members_insert] at inside
      refine (ih answered).of_filter next.candidate ?_
      rw [inside]
      exact Finset.mem_union_left _ (Finset.mem_insert_self _ _)

theorem greedy_covers {uncovered : List Word}
    (answered : greedy n uncovered candidates = .ok chosen) :
    (∀ i ∈ chosen.members, i < candidates.length) ∧ Covers uncovered candidates chosen.members := by
  have run := greedyCovering_runs n uncovered candidates
  refine ⟨fun i member => ?_, run.covers answered⟩
  rw [(run.answer answered).1, IndexSet.members_withCapacity, Finset.empty_union,
    List.mem_toFinset] at member
  obtain ⟨pick, picked, rfl⟩ := List.mem_map.mp member
  exact (List.getElem?_eq_some_iff.mp (run.mem_picks picked).1).1

/-! ## Failure -/

/-- The chosen candidates cover nothing of what remains. -/
def Spent (candidates : List Implicant) (chosen : IndexSet) (remaining : List Word) : Prop :=
  ∀ i ∈ chosen.members, ∀ a, candidates[i]? = some a → ∀ m ∈ remaining, a.covers m = false

theorem spent_withCapacity (candidates : List Implicant) (capacity : Nat) (remaining : List Word) :
    Spent candidates (IndexSet.withCapacity capacity) remaining := by
  intro i taken
  rw [IndexSet.members_withCapacity] at taken
  exact absurd taken (Finset.notMem_empty i)

/-- Taking a candidate leaves nothing that it covers. -/
theorem Spent.insert {i : Nat} {a : Implicant} (spent : Spent candidates chosen remaining)
    (found : candidates[i]? = some a) :
    Spent candidates (chosen.insert i) (remaining.filter fun m => !a.covers m) := by
  intro j taken b known m listed
  obtain ⟨earlier, left⟩ := List.mem_filter.mp listed
  rw [IndexSet.members_insert, Finset.mem_insert] at taken
  rcases taken with rfl | old
  · rw [found] at known
    obtain rfl := Option.some.inj known
    exact Bool.not_eq_true' _ ▸ left
  · exact spent j old b known m earlier

/-- No candidate covers the minterm, and it is the first one of the list of which this holds. -/
def IsFirstUncoverable (candidates : List Implicant) (uncovered : List Word) (m : Word) : Prop :=
  ∃ before after, uncovered = before ++ m :: after ∧
    (∀ x ∈ before, ∃ a ∈ candidates, a.covers x = true) ∧ ∀ a ∈ candidates, a.covers m = false

theorem isFirstUncoverable_iff {uncovered : List Word} {m : Word} :
    IsFirstUncoverable candidates uncovered m ↔
      uncovered.find? (fun m => !candidates.any (·.covers m)) = some m := by
  rw [List.find?_eq_some_iff_append, IsFirstUncoverable]
  simp only [Bool.not_not, List.any_eq_true, Bool.not_eq_true', List.any_eq_false,
    Bool.not_eq_true]
  constructor
  · rintro ⟨before, after, split, earlier, here⟩
    exact ⟨here, before, after, split, earlier⟩
  · rintro ⟨here, before, after, split, earlier⟩
    exact ⟨before, after, split, earlier, here⟩

/-- A minterm that no candidate covers stays through all picks, so the first one that remains when
they get stuck is the first one of the list. -/
theorem Runs.error {course : GreedyCovering} {cause : Error}
    (run : Runs n candidates chosen remaining course) (spent : Spent candidates chosen remaining)
    (failed : course.outcome = .error cause) :
    ∃ m, cause = .uncoverable m ∧
      remaining.find? (fun m => !candidates.any (·.covers m)) = some m := by
  induction run with
  | covered chosen => cases failed
  | @stuck chosen first others useless =>
      cases failed
      refine ⟨first, rfl, List.find?_cons_of_pos ?_⟩
      rw [Bool.not_eq_true', List.any_eq_false]
      intro a listed covers
      obtain ⟨i, found⟩ := List.mem_iff_getElem?.mp listed
      by_cases taken : i ∈ chosen.members
      · rw [spent i taken a found first List.mem_cons_self] at covers
        cases covers
      · exact List.countP_eq_zero.mp (useless i a found taken) first List.mem_cons_self covers
  | take next rest ih =>
      obtain ⟨m, rfl, found⟩ := ih (spent.insert next.candidate) failed
      refine ⟨m, rfl, ?_⟩
      rw [List.find?_filter] at found
      rw [← found]
      refine congrArg₂ _ (funext fun x => ?_) rfl
      rw [Bool.eq_iff_iff, decide_eq_true_iff, Bool.not_eq_true', Bool.not_eq_true',
        List.any_eq_false]
      refine (and_iff_right_of_imp fun none => ?_).symm
      exact Bool.not_eq_true _ ▸ none _ (List.mem_of_getElem? next.candidate)

theorem greedy_error_iff {uncovered : List Word} {cause : Error} :
    greedy n uncovered candidates = .error cause ↔
      ∃ m, cause = .uncoverable m ∧ IsFirstUncoverable candidates uncovered m := by
  have run := greedyCovering_runs n uncovered candidates
  constructor
  · intro failed
    obtain ⟨m, rfl, found⟩ := run.error (spent_withCapacity _ _ _) failed
    exact ⟨m, rfl, isFirstUncoverable_iff.mpr found⟩
  · rintro ⟨m, rfl, first⟩
    cases outcome : greedy n uncovered candidates with
    | ok final =>
        obtain ⟨before, after, rfl, -, none⟩ := first
        obtain ⟨i, -, a, found, covers⟩ :=
          run.covers outcome m (List.mem_append_right _ List.mem_cons_self)
        rw [none a (List.mem_of_getElem? found)] at covers
        cases covers
    | error cause =>
        obtain ⟨m', rfl, found⟩ := run.error (spent_withCapacity _ _ _) outcome
        rw [isFirstUncoverable_iff.mp first] at found
        rw [Option.some.inj found]

/-- Clauses fail in the same way. -/
theorem clauses_error_iff {uncovered : List Word} {cause : Error} :
    clauses candidates uncovered = .error cause ↔
      ∃ m, cause = .uncoverable m ∧ IsFirstUncoverable candidates uncovered m := by
  simp only [isFirstUncoverable_iff, clauses_eq]
  cases uncovered.find? fun m => !candidates.any (·.covers m) with
  | none => simp
  | some m => simp [eq_comm]

theorem exists_greedy {uncovered : List Word}
    (coverable : ∀ m ∈ uncovered, ∃ a ∈ candidates, a.covers m = true) :
    ∃ chosen, greedy n uncovered candidates = .ok chosen := by
  cases outcome : greedy n uncovered candidates with
  | ok chosen => exact ⟨chosen, rfl⟩
  | error cause =>
      obtain ⟨m, -, before, after, rfl, -, none⟩ := greedy_error_iff.mp outcome
      obtain ⟨a, member, covers⟩ :=
        coverable m (List.mem_append_right _ List.mem_cons_self)
      rw [none a member] at covers
      cases covers

/-! ## Gains -/

namespace Runs

variable {course : GreedyCovering}

/-- If no candidate covers more than a bound of what remains, no pick does. -/
theorem gain_le {bound : Nat} (run : Runs n candidates chosen remaining course)
    (most : ∀ i a, candidates[i]? = some a → i ∉ chosen.members → gain remaining a ≤ bound) :
    ∀ pick ∈ course.picks, pick.gain ≤ bound := by
  induction run with
  | covered chosen => exact fun pick picked => by cases picked
  | stuck => exact fun pick picked => by cases picked
  | @take chosen remaining first later next rest ih =>
      intro pick picked
      rcases List.mem_cons.mp picked with rfl | further
      · exact next.gain_eq ▸ most _ _ next.candidate next.fresh
      · refine ih (fun i a listed free => ?_) pick further
        rw [IndexSet.members_insert, Finset.mem_insert, not_or] at free
        exact (gain_filter_le _ _ a).trans (most i a listed free.2)

theorem antitone (run : Runs n candidates chosen remaining course) :
    (course.picks.map (·.gain)).Pairwise (· ≥ ·) := by
  induction run with
  | covered chosen => exact List.Pairwise.nil
  | stuck => exact List.Pairwise.nil
  | @take chosen remaining pick later next rest ih =>
      refine List.pairwise_cons.mpr ⟨List.forall_mem_map.mpr fun p picked => ?_, ih⟩
      have bound : p.gain ≤ pick.gain := by
        refine rest.gain_le (fun i a listed free => ?_) p picked
        rw [IndexSet.members_insert, Finset.mem_insert, not_or] at free
        have less := gain_filter_le remaining (fun m => !pick.implicant.covers m) a
        have most := next.best i a listed free.2 free.1
        omega
      exact bound

/-- Before a pick the earlier ones are chosen, and what none of them covers remains. -/
theorem isNext (run : Runs n candidates chosen remaining course) {before after : List Offer}
    {pick : Offer} (split : course.picks = before ++ pick :: after) :
    IsNext n candidates (chosen.members ∪ (before.map (·.index)).toFinset)
      (uncoveredBy (before.map (·.implicant)) remaining) pick := by
  induction run generalizing before with
  | covered chosen => simp at split
  | stuck => simp at split
  | @take chosen remaining first later next rest ih =>
      cases before with
      | nil =>
          obtain ⟨rfl, -⟩ := List.cons.inj split
          simpa [uncoveredBy] using next
      | cons earlier before =>
          obtain ⟨rfl, others⟩ := List.cons.inj split
          have step := ih others
          have left : uncoveredBy (before.map (·.implicant))
              (remaining.filter fun m => !first.implicant.covers m) =
              uncoveredBy ((first :: before).map (·.implicant)) remaining := by
            rw [uncoveredBy, uncoveredBy, List.filter_filter]
            refine List.filter_congr fun m _ => ?_
            rw [List.map_cons, List.any_cons, Bool.not_or, Bool.and_comm]
          rwa [left, IndexSet.members_insert, Finset.insert_union, ← Finset.union_insert,
            ← List.toFinset_cons, ← List.map_cons] at step

end Runs

/-! ## The greedy covering -/

theorem greedy_isOk_iff {uncovered : List Word} :
    (∃ chosen, greedy n uncovered candidates = .ok chosen) ↔
      ∃ all, clauses candidates uncovered = .ok all := by
  have same (cause : Error) : greedy n uncovered candidates = .error cause ↔
      clauses candidates uncovered = .error cause := greedy_error_iff.trans clauses_error_iff.symm
  cases first : greedy n uncovered candidates <;>
    cases second : clauses candidates uncovered <;> simp_all

/-- **The greedy covering is total.** The picks have one course, and it comes to an end. Unless some
minterm has no candidate this is an answer, else the first such minterm is the error, as it is
that of the clauses. An answer covers every minterm by at most as many candidates as there are
minterms. The picks are its members, each with the gain that is reported of it: gains are positive,
never grow, and add up to the number of minterms. Of the candidates not taken before, each pick is
the one that covers the most of what the earlier ones do not cover, of several one with the fewest
literals, and of those the first. -/
theorem greedy_exact (n : Arity) (uncovered : List Word) (candidates : List Implicant) :
    let course := greedyCovering n uncovered candidates
    (∀ other, Runs n candidates (IndexSet.withCapacity candidates.length) uncovered other ↔
      other = course) ∧
    ((∃ chosen, greedy n uncovered candidates = .ok chosen) ↔
      ∃ all, clauses candidates uncovered = .ok all) ∧
    (∀ cause, (greedy n uncovered candidates = .error cause ↔
        clauses candidates uncovered = .error cause) ∧
      (greedy n uncovered candidates = .error cause ↔
        ∃ m, cause = .uncoverable m ∧ IsFirstUncoverable candidates uncovered m)) ∧
    ∀ chosen, greedy n uncovered candidates = .ok chosen →
      Covers uncovered candidates chosen.members ∧
      (∀ i ∈ chosen.members, i < candidates.length) ∧
      chosen.size ≤ uncovered.length ∧
      chosen.members = (course.picks.map (·.index)).toFinset ∧
      chosen.size = course.picks.length ∧
      (Event.ofPicks course).map (·.message) =
        course.picks.map (fun p =>
          s!"greedy: take candidate {p.index} covering {p.gain} minterms") ∧
      (∀ p ∈ course.picks, 0 < p.gain) ∧
      (course.picks.map (·.gain)).Pairwise (· ≥ ·) ∧
      (course.picks.map (·.gain)).sum = uncovered.length ∧
      ∀ before p after, course.picks = before ++ p :: after →
        IsNext n candidates (before.map (·.index)).toFinset
          (uncoveredBy (before.map (·.implicant)) uncovered) p := by
  intro course
  have run := greedyCovering_runs n uncovered candidates
  refine ⟨fun other => ⟨fun again => again.unique run, fun same => same ▸ run⟩, greedy_isOk_iff,
    fun cause => ⟨greedy_error_iff.trans clauses_error_iff.symm, greedy_error_iff⟩,
    fun chosen answered => ?_⟩
  obtain ⟨within, covers⟩ := greedy_covers answered
  obtain ⟨members, size, sum⟩ := run.answer answered
  have empty : (IndexSet.withCapacity candidates.length).size = 0 := rfl
  rw [IndexSet.members_withCapacity, Finset.empty_union] at members
  rw [empty, Nat.zero_add] at size
  have positive : ∀ p ∈ course.picks, 0 < p.gain := fun p picked => (run.mem_picks picked).2
  have few : course.picks.length ≤ uncovered.length := by
    have bound := List.length_le_sum_of_one_le _ (List.forall_mem_map.mpr positive)
    rwa [List.length_map, sum] at bound
  refine ⟨covers, within, size ▸ few, members, size, List.map_map, positive, run.antitone, sum, ?_⟩
  intro before p after split
  have next := run.isNext split
  rwa [IndexSet.members_withCapacity, Finset.empty_union] at next

/-- The two candidates of two literals cover two minterms each, and the first one is taken; then
both others would cover the last minterm, and the one of one literal is taken. Without a candidate
for seven the picks end in an error. -/
theorem greedy_exact_ties :
    let n : Arity := ⟨3, by decide⟩
    let candidates : List Implicant := [⟨[0, 1, 2, 3], 3, 0⟩, ⟨[4, 5], 1, 4⟩, ⟨[0, 4], 4, 0⟩]
    let chosen := ((IndexSet.withCapacity 3).insert 1).insert 0
    (greedy n [0, 4, 5] candidates = .ok chosen ∧
      Covers [0, 4, 5] candidates chosen.members ∧ chosen.size ≤ 3 ∧
      IsNext n candidates {1} (uncoveredBy [⟨[4, 5], 1, 4⟩] [0, 4, 5])
        ⟨0, ⟨[0, 1, 2, 3], 3, 0⟩, 1, 1⟩) ∧
    greedy n [4, 7, 0, 6] candidates = .error (.uncoverable 7) := by
  intro n candidates chosen
  have answered : greedy n [0, 4, 5] candidates = .ok chosen := by cbv
  obtain ⟨-, -, -, answer⟩ := greedy_exact n [0, 4, 5] candidates
  obtain ⟨covers, -, few, -, -, -, -, -, -, next⟩ := answer chosen answered
  obtain ⟨-, -, failure, -⟩ := greedy_exact n [4, 7, 0, 6] candidates
  have picks : (greedyCovering n [0, 4, 5] candidates).picks =
      [⟨1, ⟨[4, 5], 1, 4⟩, 2, 2⟩] ++ ⟨0, ⟨[0, 1, 2, 3], 3, 0⟩, 1, 1⟩ :: [] := by cbv
  refine ⟨⟨answered, covers, few, next _ _ _ picks⟩, ?_⟩
  have earlier : ∀ x ∈ [4], ∃ a ∈ candidates, a.covers x = true :=
    List.forall_mem_singleton.mpr (by decide)
  exact (failure _).2.mpr ⟨7, rfl, [4], [0, 6], rfl, earlier, by decide⟩

end Covering

end TwoLevel
