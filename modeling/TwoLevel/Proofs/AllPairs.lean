/-
# TwoLevel.Proofs.AllPairs — a round merges all pairs

A round tries an implicant against the bucket above its own and nothing else. The naive round
tries all pairs of a list (`Merge.ofPairs`), one merge for each two positions whose entries
combine (`Merge.length_ofPairs`). Over buckets by number of positive literals these are the
same merges, in the same order (`Merge.ofBuckets_eq_ofPairs`): a pair that combines is one
literal apart, so it comes from adjacent buckets (`Spaced`).

What takes part in a merge can be flagged by its position in all buckets together, with the
position of the first entry of a bucket as its offset (`Round.flags`). No two entries have the
same position, so the entries without a flag are the unused ones, whatever the buckets hold
(`Round.unusedFrom_eq_unflagged`). Dropping repetitions bucket by bucket leaves each implicant
once in all, because equal ones are in one bucket; `Round.ofBuckets_exact` has it together.
-/
import Mathlib.Data.Set.Card
import TwoLevel.Proofs.Members
import TwoLevel.Proofs.Merging
import TwoLevel.Proofs.Unions

namespace TwoLevel

set_option autoImplicit false

variable {n : Arity} {buckets : List (List Implicant)} {a b e : Implicant}

/-! ## All pairs of a list -/

namespace Merge

/-- The merges of one implicant with those of a list. -/
def withEach (n : Arity) (a : Implicant) (others : List Implicant) : List Merge :=
  others.filterMap fun b => (a.combine b n).map (Merge.mk a b)

/-- The merges of all pairs of a list, the earlier entry on the left. -/
def ofPairs (n : Arity) : List Implicant → List Merge
  | [] => []
  | a :: rest => withEach n a rest ++ ofPairs n rest

theorem withEach_eq_nil {others : List Implicant}
    (none : ∀ b ∈ others, a.combine b n = .none) : withEach n a others = [] := by
  rw [withEach, List.filterMap_eq_nil_iff]
  intro b member
  rw [none b member]
  rfl

theorem withEach_append (n : Arity) (a : Implicant) (front later : List Implicant) :
    withEach n a (front ++ later) = withEach n a front ++ withEach n a later :=
  List.filterMap_append

theorem length_withEach (n : Arity) (a : Implicant) (others : List Implicant) :
    (withEach n a others).length = others.countP fun b => (a.combine b n).isSome := by
  simp only [withEach, List.length_filterMap_eq_countP, Option.isSome_map]

theorem mem_map_withEach {others : List Implicant} :
    e ∈ (withEach n a others).map (·.result) ↔ ∃ b ∈ others, a.combine b n = some e := by
  simp only [withEach, List.mem_map, List.mem_filterMap, Option.map_eq_some_iff]
  constructor
  · rintro ⟨m, ⟨b, member, e, merged, rfl⟩, rfl⟩
    exact ⟨b, member, merged⟩
  · rintro ⟨b, member, merged⟩
    exact ⟨_, ⟨b, member, e, merged, rfl⟩, rfl⟩

/-- Entries in front that do not combine with each other combine with later ones only. -/
theorem ofPairs_append {front : List Implicant} (later : List Implicant)
    (none : ∀ a ∈ front, ∀ b ∈ front, a.combine b n = .none) :
    ofPairs n (front ++ later) =
      front.flatMap (fun a => withEach n a later) ++ ofPairs n later := by
  induction front with
  | nil => rfl
  | cons a front ih =>
      have apart : withEach n a front = [] :=
        withEach_eq_nil fun b member => none a List.mem_cons_self b (List.mem_cons_of_mem _ member)
      have others := ih fun a left b right =>
        none a (List.mem_cons_of_mem _ left) b (List.mem_cons_of_mem _ right)
      rw [List.cons_append, ofPairs, withEach_append, apart, List.nil_append, others,
        List.flatMap_cons, List.append_assoc]

end Merge

/-- The entries at two positions of a list combine into `e`, the earlier one on the left. -/
def CombinesAt (n : Arity) (entries : List Implicant) (p : Nat × Nat) (e : Implicant) : Prop :=
  p.1 < p.2 ∧ ∃ a b, entries[p.1]? = some a ∧ entries[p.2]? = some b ∧ a.combine b n = some e

/-- The first entry is one of the two, or both come later. -/
theorem combinesAt_cons {rest : List Implicant} {p : Nat × Nat} :
    CombinesAt n (a :: rest) p e ↔
      (∃ (j : Nat) (b : Implicant),
        rest[j]? = some b ∧ a.combine b n = some e ∧ (0, j + 1) = p) ∨
        ∃ q, CombinesAt n rest q e ∧ Prod.map (· + 1) (· + 1) q = p := by
  constructor
  · obtain ⟨i, j⟩ := p
    rintro ⟨less, c, b, first, second, merged⟩
    cases j with
    | zero => cases less
    | succ j =>
        cases i with
        | zero =>
            obtain rfl : a = c := Option.some.inj first
            exact .inl ⟨j, b, second, merged, rfl⟩
        | succ i =>
            have later := Nat.lt_of_succ_lt_succ less
            exact .inr ⟨(i, j), ⟨later, c, b, first, second, merged⟩, rfl⟩
  · rintro (⟨j, b, second, merged, rfl⟩ | ⟨q, ⟨less, c, b, first, second, merged⟩, rfl⟩)
    · exact ⟨Nat.succ_pos j, a, b, rfl, second, merged⟩
    · exact ⟨Nat.succ_lt_succ less, c, b, first, second, merged⟩

theorem CombinesAt.lt_length {entries : List Implicant} {p : Nat × Nat}
    (found : CombinesAt n entries p e) : p.1 < entries.length ∧ p.2 < entries.length := by
  obtain ⟨-, a, b, first, second, -⟩ := found
  exact ⟨(List.getElem?_eq_some_iff.mp first).1, (List.getElem?_eq_some_iff.mp second).1⟩

theorem finite_combinesAt (n : Arity) (entries : List Implicant) :
    {p | ∃ e, CombinesAt n entries p e}.Finite := by
  have bound := Set.finite_lt_nat entries.length
  refine (bound.prod bound).subset ?_
  rintro p ⟨e, found⟩
  exact found.lt_length

/-- As many positions hold an entry with a property as the property counts. -/
theorem ncard_positions_eq_countP {α : Type} (holds : α → Bool) (l : List α) :
    {j : Nat | ∃ b, l[j]? = some b ∧ holds b = true}.ncard = l.countP holds := by
  have listed : {j : Nat | ∃ b, l[j]? = some b ∧ holds b = true} =
      (l.findIdxs holds).toFinset := by
    ext j
    rw [List.coe_toFinset, Set.mem_ofPred_eq, Set.mem_ofPred_eq,
      List.mem_findIdxs_iff_exists_getElem_pos]
    constructor
    · rintro ⟨b, here, good⟩
      obtain ⟨bound, rfl⟩ := List.getElem?_eq_some_iff.mp here
      exact ⟨bound, good⟩
    · rintro ⟨bound, good⟩
      exact ⟨l[j], List.getElem?_eq_getElem bound, good⟩
  rw [listed, Set.ncard_coe_finset, List.toFinset_card_of_nodup List.nodup_findIdxs,
    List.length_findIdxs]

/-- The pairs of positions with the first entry, and those without it. -/
theorem setOf_combinesAt_cons (n : Arity) (a : Implicant) (rest : List Implicant) :
    {p | ∃ e, CombinesAt n (a :: rest) p e} =
      (fun j => (0, j + 1)) '' {j | ∃ b, rest[j]? = some b ∧ (a.combine b n).isSome = true} ∪
        Prod.map (· + 1) (· + 1) '' {p | ∃ e, CombinesAt n rest p e} := by
  ext p
  rw [Set.mem_ofPred_eq, Set.mem_union, Set.mem_image, Set.mem_image]
  simp only [combinesAt_cons, Set.mem_ofPred_eq, Option.isSome_iff_exists]
  constructor
  · rintro ⟨e, ⟨j, b, here, merged, same⟩ | ⟨q, later, same⟩⟩
    · exact .inl ⟨j, ⟨b, here, e, merged⟩, same⟩
    · exact .inr ⟨q, ⟨e, later⟩, same⟩
  · rintro (⟨j, ⟨b, here, e, merged⟩, same⟩ | ⟨q, ⟨e, later⟩, same⟩)
    · exact ⟨e, .inl ⟨j, b, here, merged, same⟩⟩
    · exact ⟨e, .inr ⟨q, later, same⟩⟩

namespace Merge

/-- The results are those of the pairs of positions. -/
theorem mem_map_ofPairs {entries : List Implicant} :
    e ∈ (ofPairs n entries).map (·.result) ↔ ∃ p, CombinesAt n entries p e := by
  induction entries with
  | nil => simp [ofPairs, CombinesAt]
  | cons a rest ih =>
      rw [ofPairs, List.map_append, List.mem_append, mem_map_withEach, ih]
      simp only [combinesAt_cons, List.mem_iff_getElem?]
      constructor
      · rintro (⟨b, ⟨j, here⟩, merged⟩ | ⟨q, later⟩)
        · exact ⟨_, .inl ⟨j, b, here, merged, rfl⟩⟩
        · exact ⟨_, .inr ⟨q, later, rfl⟩⟩
      · rintro ⟨p, ⟨j, b, here, merged, -⟩ | ⟨q, later, -⟩⟩
        · exact .inl ⟨b, ⟨j, here⟩, merged⟩
        · exact .inr ⟨q, later⟩

/-- There is one merge for each pair of positions whose entries combine. -/
theorem length_ofPairs (n : Arity) (entries : List Implicant) :
    (ofPairs n entries).length = {p | ∃ e, CombinesAt n entries p e}.ncard := by
  induction entries with
  | nil => simp [ofPairs, CombinesAt]
  | cons a rest ih =>
      have finite := finite_combinesAt n (a :: rest)
      rw [setOf_combinesAt_cons] at finite ⊢
      rw [Set.ncard_union_eq ?_ (finite.subset Set.subset_union_left)
          (finite.subset Set.subset_union_right),
        Set.ncard_image_of_injective, Set.ncard_image_of_injective, ← ih,
        ncard_positions_eq_countP, ← length_withEach, ofPairs, List.length_append]
      · exact Prod.map_injective.mpr ⟨Nat.succ_injective, Nat.succ_injective⟩
      · intro i j same
        simpa using same
      · rw [Set.disjoint_left]
        rintro p ⟨j, -, rfl⟩ ⟨q, -, same⟩
        cases same

end Merge

/-! ## Buckets -/

/-- Only implicants in adjacent buckets combine. -/
def Spaced (n : Arity) (buckets : List (List Implicant)) : Prop :=
  ∀ i j, ∀ a ∈ buckets.getD i [], ∀ b ∈ buckets.getD j [],
    a.combine b n ≠ none → j = i + 1 ∨ i = j + 1

namespace Spaced

variable {bucket : List Implicant} {rest : List (List Implicant)}

theorem tail (spaced : Spaced n (bucket :: rest)) : Spaced n rest := by
  intro i j a left b right near
  have step := spaced (i + 1) (j + 1) a left b right near
  omega

theorem combine_eq_none (spaced : Spaced n buckets) {i j : Nat} (left : a ∈ buckets.getD i [])
    (right : b ∈ buckets.getD j []) (apart : ¬(j = i + 1 ∨ i = j + 1)) :
    a.combine b n = none := by
  by_contra near
  exact apart (spaced i j a left b right near)

end Spaced

theorem Bucketed.spaced (bucketed : Bucketed n buckets) : Spaced n buckets := by
  intro i j a left b right near
  obtain ⟨first, rankLeft⟩ := bucketed.mem_getD.mp left
  obtain ⟨second, rankRight⟩ := bucketed.mem_getD.mp right
  rw [Ne, Implicant.combine_eq_none_iff] at near
  have step := bucketed.adjacent first second near
  omega

/-- The order of two implicants does not matter for what they combine into. -/
theorem Bucketed.combine_comm (bucketed : Bucketed n buckets) (left : a ∈ buckets.flatten)
    (right : b ∈ buckets.flatten) : a.combine b n = b.combine a n := by
  obtain ⟨c, first, overLeft⟩ := bucketed.cubes a left
  obtain ⟨d, second, overRight⟩ := bucketed.cubes b right
  refine Option.ext fun e => ?_
  constructor
  · exact Implicant.combine_symm first second overLeft overRight
  · exact Implicant.combine_symm second first overRight overLeft

/-- Trying adjacent buckets only, a round makes the merges of all pairs. -/
theorem Merge.ofBuckets_eq_ofPairs (spaced : Spaced n buckets) :
    ofBuckets n buckets = ofPairs n buckets.flatten := by
  induction buckets with
  | nil => rfl
  | cons lower rest ih =>
      have same : ∀ a ∈ lower, ∀ b ∈ lower, a.combine b n = none := fun a left b right =>
        spaced.combine_eq_none (i := 0) (j := 0) left right (by omega)
      rw [List.flatten_cons, ofPairs_append _ same, ← ih spaced.tail]
      cases rest with
      | nil => simp [ofBuckets, withEach]
      | cons upper rest =>
          rw [ofBuckets, between_eq]
          congr 1
          refine List.flatMap_congr fun a left => ?_
          -- what lies two buckets up or more does not combine with the lowest bucket
          have beyond : withEach n a rest.flatten = [] := by
            refine withEach_eq_nil fun b right => ?_
            obtain ⟨j, right⟩ := mem_flatten_iff_getD.mp right
            exact spaced.combine_eq_none (i := 0) (j := j + 2) left right (by omega)
          rw [List.flatten_cons, withEach_append, beyond, List.append_nil]
          rfl

/-! ## Flags by position -/

namespace Round

/-- The positions of the two parts of every merge between two buckets, the first entry of the
lower one being at `start`. -/
def flagsBetween (n : Arity) (start : Nat) (lower upper : List Implicant) : List Nat :=
  (lower.zipIdx start).flatMap fun (a, p) =>
    (upper.zipIdx (start + lower.length)).flatMap fun (b, q) =>
      if (a.combine b n).isSome then [p, q] else []

/-- The positions of the parts of all merges, the first entry of all being at `start`. -/
def flagsFrom (n : Arity) (start : Nat) : List (List Implicant) → List Nat
  | lower :: upper :: rest =>
      flagsBetween n start lower upper ++ flagsFrom n (start + lower.length) (upper :: rest)
  | _ => []

/-- The set of these positions. -/
def flags (n : Arity) (buckets : List (List Implicant)) : IndexSet :=
  (IndexSet.withCapacity buckets.flatten.length).extend (flagsFrom n 0 buckets)

/-- The entries of all buckets whose position has no flag. -/
def unflagged (n : Arity) (buckets : List (List Implicant)) : List Implicant :=
  (buckets.flatten.zipIdx.filter fun (_, p) => !(flags n buckets).contains p).map (·.1)

section Flags

variable {start p : Nat} {lower upper bucket : List Implicant} {rest : List (List Implicant)}

theorem mem_flagsBetween :
    p ∈ flagsBetween n start lower upper ↔
      (∃ a, (a, p) ∈ lower.zipIdx start ∧ ∃ b ∈ upper, (a.combine b n).isSome = true) ∨
        ∃ b, (b, p) ∈ upper.zipIdx (start + lower.length) ∧
          ∃ a ∈ lower, (a.combine b n).isSome = true := by
  simp only [flagsBetween, List.mem_flatMap]
  constructor
  · rintro ⟨⟨a, i⟩, first, ⟨b, j⟩, second, flagged⟩
    split at flagged
    · rename_i merged
      rcases List.mem_pair.mp flagged with rfl | rfl
      · exact .inl ⟨a, first, b, List.fst_mem_of_mem_zipIdx second, merged⟩
      · exact .inr ⟨b, second, a, List.fst_mem_of_mem_zipIdx first, merged⟩
    · cases flagged
  · rintro (⟨a, first, b, member, merged⟩ | ⟨b, second, a, member, merged⟩)
    · rw [← List.zipIdx_map_fst (start + lower.length) upper] at member
      obtain ⟨y, second, rfl⟩ := List.mem_map.mp member
      exact ⟨_, first, y, second, by simp [merged]⟩
    · rw [← List.zipIdx_map_fst start lower] at member
      obtain ⟨x, first, rfl⟩ := List.mem_map.mp member
      exact ⟨x, first, _, second, by simp [merged]⟩

theorem flagsBetween_bounds (flagged : p ∈ flagsBetween n start lower upper) :
    start ≤ p ∧ p < start + lower.length + upper.length := by
  rcases mem_flagsBetween.mp flagged with ⟨a, here, -⟩ | ⟨b, here, -⟩
  all_goals
    have least := List.le_snd_of_mem_zipIdx here
    have most := List.snd_lt_add_of_mem_zipIdx here
    omega

theorem le_of_mem_flagsFrom (flagged : p ∈ flagsFrom n start buckets) : start ≤ p := by
  fun_induction flagsFrom n start buckets with
  | case1 start lower upper rest ih =>
      rcases List.mem_append.mp flagged with here | later
      · exact (flagsBetween_bounds here).1
      · have bound := ih later
        omega
  | case2 => cases flagged

/-- No two entries of a bucket have the same position. -/
theorem eq_of_mem_zipIdx (first : (a, p) ∈ bucket.zipIdx start)
    (second : (b, p) ∈ bucket.zipIdx start) : a = b := by
  rw [List.mk_mem_zipIdx_iff_le_and_getElem?_sub] at first second
  exact Option.some.inj (first.2.symm.trans second.2)

/-- In the lower bucket, the flagged positions are those of the entries with a partner above. -/
theorem mem_flagsBetween_lower (here : (a, p) ∈ lower.zipIdx start) :
    p ∈ flagsBetween n start lower upper ↔ ∃ b ∈ upper, (a.combine b n).isSome = true := by
  have small := List.snd_lt_add_of_mem_zipIdx here
  rw [mem_flagsBetween]
  constructor
  · rintro (⟨c, again, partner⟩ | ⟨b, elsewhere, -⟩)
    · exact eq_of_mem_zipIdx here again ▸ partner
    · have large := List.le_snd_of_mem_zipIdx elsewhere
      omega
  · exact fun partner => .inl ⟨a, here, partner⟩

/-- In the upper bucket, they are those of the entries with a partner below. -/
theorem mem_flagsBetween_upper (here : (b, p) ∈ upper.zipIdx (start + lower.length)) :
    p ∈ flagsBetween n start lower upper ↔ ∃ a ∈ lower, (a.combine b n).isSome = true := by
  have large := List.le_snd_of_mem_zipIdx here
  rw [mem_flagsBetween]
  constructor
  · rintro (⟨a, elsewhere, -⟩ | ⟨c, again, partner⟩)
    · have small := List.snd_lt_add_of_mem_zipIdx elsewhere
      omega
    · exact eq_of_mem_zipIdx here again ▸ partner
  · exact fun partner => .inr ⟨b, here, partner⟩

/-- Later merges flag no position in the first bucket. -/
theorem mem_flagsFrom_head (here : (a, p) ∈ bucket.zipIdx start) :
    p ∈ flagsFrom n start (bucket :: rest) ↔
      ∃ b ∈ rest.headD [], (a.combine b n).isSome = true := by
  cases rest with
  | nil => simp [flagsFrom]
  | cons upper rest =>
      have small := List.snd_lt_add_of_mem_zipIdx here
      have later : p ∉ flagsFrom n (start + bucket.length) (upper :: rest) := by
        intro flagged
        have large := le_of_mem_flagsFrom flagged
        omega
      rw [flagsFrom, List.mem_append, or_iff_left later, mem_flagsBetween_lower here]
      rfl

theorem meets_iff {implicants : List Implicant} :
    meets n (ByMask.ofList implicants) a = true ↔
      ∃ b ∈ implicants, (a.combine b n).isSome = true := by
  simp only [meets_ofList, List.any_eq_true, Implicant.isSome_combine]

/-- An entry is flagged if it meets one in the bucket below or above. -/
theorem not_mem_flagsFrom_iff (here : (a, p) ∈ bucket.zipIdx (start + lower.length)) :
    p ∉ flagsFrom n start (lower :: bucket :: rest) ↔
      (!(meets n (ByMask.ofList lower) a || meets n (ByMask.ofList (rest.headD [])) a)) = true := by
  have below : (∃ b ∈ lower, (b.combine a n).isSome = true) ↔
      meets n (ByMask.ofList lower) a = true := by
    simp only [meets_iff, Implicant.isSome_combine, Implicant.differingBit_comm a]
  rw [flagsFrom, List.mem_append, mem_flagsBetween_upper here, mem_flagsFrom_head here, below,
    ← meets_iff, ← Bool.or_eq_true, Bool.not_eq_true, Bool.not_eq_true']

/-- What is unused is what has no flag, from any bucket on. -/
theorem unusedFrom_eq_filter (start : Nat) (below : List Implicant) :
    unusedFrom n (ByMask.ofList below) buckets =
      ((buckets.flatten.zipIdx (start + below.length)).filter fun x =>
        x.2 ∉ flagsFrom n start (below :: buckets)).map (·.1) := by
  induction buckets generalizing start below with
  | nil => rfl
  | cons bucket rest ih =>
      -- the recursion starts anew at this bucket, without the merges with the one below: these
      -- flag no position beyond it
      rw [unusedFrom, ih (start + below.length) bucket, List.flatten_cons, List.zipIdx_append,
        List.filter_append, List.map_append]
      congr 1
      · conv => lhs; rw [← List.zipIdx_map_fst (start + below.length) bucket, List.filter_map]
        congr 1
        refine List.filter_congr fun x here => ?_
        rw [← Bool.coe_iff_coe, decide_eq_true_iff, not_mem_flagsFrom_iff here]
        rfl
      · congr 1
        refine List.filter_congr fun x later => ?_
        have large := List.le_snd_of_mem_zipIdx later
        have here : x.2 ∉ flagsBetween n start below bucket := by
          intro flagged
          have small := (flagsBetween_bounds flagged).2
          omega
        refine decide_eq_decide.mpr (not_congr ?_)
        rw [flagsFrom, List.mem_append, or_iff_right here]

theorem contains_flags :
    (flags n buckets).contains p = true ↔ p ∈ flagsFrom n 0 buckets := by
  rw [flags, ← IndexSet.mem_members, IndexSet.members_extend, IndexSet.members_withCapacity,
    Finset.empty_union, List.mem_toFinset]

/-- **Flags by position say what is unused**, whatever the buckets hold. -/
theorem unusedFrom_eq_unflagged (n : Arity) (buckets : List (List Implicant)) :
    unusedFrom n [] buckets = unflagged n buckets := by
  have start : ([] : ByMask) = ByMask.ofList [] := rfl
  have flagged (p : Nat) : p ∈ flagsFrom n 0 ([] :: buckets) ↔ p ∈ flagsFrom n 0 buckets := by
    cases buckets with
    | nil => rfl
    | cons bucket rest => rfl
  rw [start, unusedFrom_eq_filter 0, unflagged]
  congr 1
  refine List.filter_congr fun x _ => ?_
  rw [← Bool.coe_iff_coe, decide_eq_true_iff, Bool.not_eq_true', ← Bool.not_eq_true,
    contains_flags, flagged]

end Flags

/-! ## The round -/

/-- **A round is the naive one.** From buckets of implicants by their number of positive
literals, in which implicants may be repeated, a round makes the merges of all pairs: as many
as there are pairs of positions in all buckets whose implicants combine, in whichever order
they are taken. Afterwards there is, each once, what these pairs combine into and what
combines with nothing present, in the bucket of its own number of positive literals. The
unused implicants are those that flags by position would leave. -/
theorem ofBuckets_exact (n : Arity) (buckets : List (List Implicant))
    (sorted : ∀ i, ∀ a ∈ buckets.getD i [], a.BuiltOver n ∧ a.ones n = i) :
    (ofBuckets n buckets).merges = Merge.ofPairs n buckets.flatten ∧
    (ofBuckets n buckets).merges.length =
      {p | ∃ e, CombinesAt n buckets.flatten p e}.ncard ∧
    (∀ a ∈ buckets.flatten, ∀ b ∈ buckets.flatten, a.combine b n = b.combine a n) ∧
    (ofBuckets n buckets).buckets.flatten.Nodup ∧
    (∀ e, e ∈ (ofBuckets n buckets).buckets.flatten ↔
      (∃ p, CombinesAt n buckets.flatten p e) ∨
        e ∈ buckets.flatten ∧ ∀ b ∈ buckets.flatten, e.combine b n = none) ∧
    (ofBuckets n buckets).buckets.length = n.size + 1 ∧
    (∀ i, ∀ e ∈ (ofBuckets n buckets).buckets.getD i [], e.ones n = i ∧ i ≤ n.size) ∧
    unusedFrom n [] buckets = unflagged n buckets := by
  have bucketed : Bucketed n buckets := by
    refine ⟨fun a member => ?_, fun i a member => (sorted i a member).2⟩
    obtain ⟨i, here⟩ := mem_flatten_iff_getD.mp member
    obtain ⟨c, repr, isOver⟩ := (sorted i a here).1.represents
    exact ⟨c, repr, isOver⟩
  have pairs := Merge.ofBuckets_eq_ofPairs bucketed.spaced
  obtain ⟨after, once, present⟩ := bucketed.round
  refine ⟨pairs, ?_, fun a left b right => bucketed.combine_comm left right, once, fun e => ?_, ?_,
    fun i e member => ?_, unusedFrom_eq_unflagged n buckets⟩
  · rw [← Merge.length_ofPairs, ← pairs]
    rfl
  · have alone : (∀ b ∈ buckets.flatten, e.differingBit b n = none) ↔
        ∀ b ∈ buckets.flatten, e.combine b n = none := by
      simp only [Implicant.combine_eq_none_iff]
    rw [← Merge.mem_map_ofPairs, ← pairs, ← alone, ← bucketed.mem_unused, ← List.mem_append]
    exact present e
  · simp [ofBuckets, bucketsByOnes_eq]
  · have own := after.ones i e member
    exact ⟨own, own ▸ e.ones_le n⟩

/-- Three of eight assignments, `000` twice, and an edge away from them: the edge of `000` and
`001` is found twice and is there once, and the edge that nothing combines with stays. -/
theorem ofBuckets_exact_repeated :
    ∃ buckets : List (List Implicant),
      buckets =
        [[.ofMinterm 0, .ofMinterm 0], [.ofMinterm 1, ⟨[4, 6], 2, 4⟩], [.ofMinterm 3], []] ∧
      (∀ i, ∀ a ∈ buckets.getD i [], a.BuiltOver ⟨3, by decide⟩ ∧ a.ones ⟨3, by decide⟩ = i) ∧
      {p | ∃ e, CombinesAt ⟨3, by decide⟩ buckets.flatten p e}.ncard = 3 ∧
      (ofBuckets ⟨3, by decide⟩ buckets).buckets =
        [[⟨[0, 1], 1, 0⟩], [⟨[1, 3], 2, 1⟩, ⟨[4, 6], 2, 4⟩], [], []] ∧
      ∃ p, CombinesAt ⟨3, by decide⟩ buckets.flatten p ⟨[0, 1], 1, 0⟩ := by
  let n : Arity := ⟨3, by decide⟩
  let buckets : List (List Implicant) :=
    [[.ofMinterm 0, .ofMinterm 0], [.ofMinterm 1, ⟨[4, 6], 2, 4⟩], [.ofMinterm 3], []]
  have single (x : Word) (below : x.toNat < 2 ^ 3) : (Implicant.ofMinterm x).BuiltOver n :=
    .ofMinterm below
  have edge : Implicant.BuiltOver n ⟨[4, 6], 2, 4⟩ :=
    .combine (single 4 (by decide)) (single 6 (by decide)) (by decide)
  have sorted : ∀ i, ∀ a ∈ buckets.getD i [], a.BuiltOver n ∧ a.ones n = i := by
    rintro (_ | _ | _ | _ | i) a member
    · obtain rfl : a = .ofMinterm 0 := by simpa [buckets] using member
      exact ⟨single 0 (by decide), by decide⟩
    · rcases List.mem_pair.mp member with rfl | rfl
      · exact ⟨single 1 (by decide), by decide⟩
      · exact ⟨edge, by decide⟩
    · obtain rfl := List.mem_singleton.mp member
      exact ⟨single 3 (by decide), by decide⟩
    · cases member
    · cases member
  obtain ⟨-, count, -, -, exact, -⟩ := ofBuckets_exact n buckets sorted
  refine ⟨buckets, rfl, sorted, count.symm.trans (by decide), by decide, ?_⟩
  have found := (exact ⟨[0, 1], 1, 0⟩).mp (by decide)
  exact found.resolve_right fun old => absurd old.1 (by decide)

end Round

end TwoLevel
