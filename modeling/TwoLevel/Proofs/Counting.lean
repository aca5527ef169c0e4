/-
# TwoLevel.Proofs.Counting — how many merges a round makes

A cube of dimension `k + 1` is the union of two halves in `k + 1` ways, one for each free
position. A round finds each of them once: after `k` rounds the merges correspond to the pairs
of such a cube within the minterms and one of its free positions (`Merge.Joins`), because no
merge is listed twice (`Merge.nodup_ofBuckets`), no two merges join the same halves, and none
joins the halves of two cubes. Counting the pairs cube by cube gives the number of merges
(`AfterRounds.length_merges`).

What is present after `k` rounds are different implicants for different cubes, those of
dimension `k` and the smaller prime ones, which gives the number of implicants
(`AfterRounds.length_flatten`). Both numbers are what the round reports at its end, with one
report for each merge before it.
-/
import Mathlib.Algebra.BigOperators.Group.Finset.Sigma
import Mathlib.Data.Set.Card
import TwoLevel.Proofs.Rounds

namespace TwoLevel

set_option autoImplicit false

variable {n : Arity} {S : List Word} {k : Nat} {buckets : List (List Implicant)}

/-- If every entry of a list without repetitions has one partner, and no two have the same one,
there are as many partners as entries. -/
theorem ncard_partners {α β : Type} {partner : α → β → Prop} {l : List α} (once : l.Nodup)
    (total : ∀ a ∈ l, ∃ b, partner a b)
    (unique : ∀ a ∈ l, ∀ b c, partner a b → partner a c → b = c)
    (apart : ∀ a ∈ l, ∀ a' ∈ l, ∀ b, partner a b → partner a' b → a = a') :
    {b | ∃ a ∈ l, partner a b}.ncard = l.length := by
  classical
  choose f chosen using total
  have entries : {a | a ∈ l}.ncard = l.length := by
    rw [← List.toFinset_card_of_nodup once, ← Set.ncard_coe_finset, List.coe_toFinset]
  rw [← entries]
  refine (Set.ncard_congr f ?_ ?_ ?_).symm
  · exact fun a member => ⟨a, member, chosen a member⟩
  · intro a a' member member' same
    exact apart a member a' member' _ (chosen a member) (same ▸ chosen a' member')
  · rintro b ⟨a, member, found⟩
    exact ⟨a, member, unique a member _ _ (chosen a member) found⟩

/-! ## Cubes -/

instance : Finite Cube := by
  refine Finite.of_injective (fun c : Cube => (c.mask.toFin, c.base.toFin)) fun c d same => ?_
  obtain ⟨mask, base⟩ := Prod.mk.inj same
  exact Cube.ext (UInt64.toFin_inj.mp mask) (UInt64.toFin_inj.mp base)

/-- How many cubes of dimension `k` lie within `S`. -/
noncomputable def Cube.count (S : List Word) (k : Nat) : Nat :=
  {c : Cube | c.Within S ∧ c.dimension = k}.ncard

/-- How many prime cubes of `S` have a dimension below `k`. -/
noncomputable def Cube.countPrime (S : List Word) (k : Nat) : Nat :=
  {c : Cube | c.IsPrime S ∧ c.dimension < k}.ncard

/-- The cubes that are there after `k` rounds are of two sorts. -/
theorem Cube.ncard_present (S : List Word) (k : Nat) :
    {c : Cube | c.Present S k}.ncard = Cube.count S k + Cube.countPrime S k := by
  have sorts : {c : Cube | c.Present S k} =
      {c : Cube | c.Within S ∧ c.dimension = k} ∪ {c : Cube | c.IsPrime S ∧ c.dimension < k} :=
    Set.ext fun c => Cube.present_iff
  have apart : Disjoint {c : Cube | c.Within S ∧ c.dimension = k}
      {c : Cube | c.IsPrime S ∧ c.dimension < k} := by
    refine Set.disjoint_left.mpr ?_
    rintro c ⟨-, size⟩ ⟨-, small⟩
    omega
  rw [sorts, Set.ncard_union_eq apart (Set.toFinite _) (Set.toFinite _)]
  rfl

/-- Every cube of dimension `k` has `k` free positions. -/
theorem Cube.ncard_positions (S : List Word) (k : Nat) :
    {x : (_ : Cube) × Nat | (x.1.Within S ∧ x.1.dimension = k) ∧ x.1.mask.bit x.2 = true}.ncard =
      k * Cube.count S k := by
  classical
  let cubes := (Set.toFinite {c : Cube | c.Within S ∧ c.dimension = k}).toFinset
  have pairs :
      {x : (_ : Cube) × Nat | (x.1.Within S ∧ x.1.dimension = k) ∧ x.1.mask.bit x.2 = true} =
        ↑(cubes.sigma fun c => c.mask.positions) := by
    ext x
    simp [cubes]
  have each : ∀ c ∈ cubes, c.mask.positions.card = k := by
    intro c member
    rw [Word.card_positions]
    exact ((Set.Finite.mem_toFinset _).mp member).2
  rw [pairs, Set.ncard_coe_finset, Finset.card_sigma, Finset.sum_const_nat each, Nat.mul_comm,
    Cube.count, Set.ncard_eq_toFinset_card]

/-! ## Merges -/

attribute [ext] Merge

theorem Merge.nodup_between {lower upper : List Implicant} (first : lower.Nodup)
    (second : upper.Nodup) : (Merge.between n lower upper).Nodup := by
  rw [Merge.between_eq, List.nodup_flatMap]
  constructor
  · intro a _
    refine List.Nodup.filterMap (fun b b' m left right => ?_) second
    obtain ⟨e, -, rfl⟩ := Option.map_eq_some_iff.mp left
    obtain ⟨e', -, same⟩ := Option.map_eq_some_iff.mp right
    exact (congrArg Merge.right same).symm
  · refine first.imp fun {a a'} differ => ?_
    intro m left right
    obtain ⟨b, -, found⟩ := List.mem_filterMap.mp left
    obtain ⟨b', -, found'⟩ := List.mem_filterMap.mp right
    obtain ⟨e, -, rfl⟩ := Option.map_eq_some_iff.mp found
    obtain ⟨e', -, same⟩ := Option.map_eq_some_iff.mp found'
    exact differ (congrArg Merge.left same).symm

/-- No pair is merged twice: the left parts of two buckets are different. -/
theorem Merge.nodup_ofBuckets (once : buckets.flatten.Nodup) :
    (Merge.ofBuckets n buckets).Nodup := by
  induction buckets with
  | nil => exact List.nodup_nil
  | cons lower rest ih =>
      cases rest with
      | nil => exact List.nodup_nil
      | cons upper rest =>
          rw [List.flatten_cons, List.nodup_append] at once
          obtain ⟨first, later, apart⟩ := once
          have second : upper.Nodup := by
            rw [List.flatten_cons, List.nodup_append] at later
            exact later.1
          rw [Merge.ofBuckets, List.nodup_append]
          refine ⟨Merge.nodup_between first second, ih later, ?_⟩
          rintro m here _ further rfl
          obtain ⟨i, left, -⟩ := Merge.mem_ofBuckets.mp further
          exact apart _ (Merge.mem_between.mp here).1 _ (mem_flatten_iff_getD.mpr ⟨i, left⟩) rfl

namespace Merge.Joins

variable {m m' : Merge} {c d : Cube} {p q : Nat}

/-- The halves decide the merge. -/
theorem unique (joins : m.Joins c p) (again : m'.Joins c p) : m = m' := by
  have left := joins.left.unique again.left
  have right := joins.right.unique again.right
  have result := joins.result.unique again.result
  exact Merge.ext left right result

/-- A merge joins the halves of one cube, along one position. -/
theorem determines (joins : m.Joins c p) (again : m.Joins d q) : c = d ∧ p = q := by
  obtain rfl := joins.result.cube_unique again.result
  have halves := joins.left.cube_unique again.left
  refine ⟨rfl, ?_⟩
  -- position `p` is no longer free in the left half, and only `q` was given up for it
  by_contra differ
  have held := Cube.narrow_mask_bit (c := c) (Word.lt_of_bit joins.free)
  have below := Word.lt_of_bit again.free
  rw [halves] at held
  simp [Cube.narrow, Word.bit_single below, joins.free, Ne.symm differ] at held

end Merge.Joins

namespace AfterRounds

/-- There are as many merges as pairs of a cube of the next dimension and a free position. -/
theorem length_merges (known : AfterRounds n S k buckets) (admitted : ∀ x ∈ S, n.admits x = true) :
    (Merge.ofBuckets n buckets).length = (k + 1) * Cube.count S (k + 1) := by
  have pairs : {x : (_ : Cube) × Nat | ∃ m ∈ Merge.ofBuckets n buckets, m.Joins x.1 x.2} =
      {x | (x.1.Within S ∧ x.1.dimension = k + 1) ∧ x.1.mask.bit x.2 = true} := by
    ext ⟨c, p⟩
    constructor
    · rintro ⟨m, merged, here⟩
      obtain ⟨d, q, -, whole, size, there⟩ := known.exists_joins merged
      obtain ⟨rfl, rfl⟩ := there.determines here
      exact ⟨⟨whole, size⟩, there.free⟩
    · rintro ⟨⟨whole, size⟩, free⟩
      exact known.exists_merge (whole.isOver admitted) whole size free
  rw [← Cube.ncard_positions, ← pairs]
  refine (ncard_partners (Merge.nodup_ofBuckets known.once) ?_ ?_ ?_).symm
  · intro m merged
    obtain ⟨c, p, -, -, -, joins⟩ := known.exists_joins merged
    exact ⟨⟨c, p⟩, joins⟩
  · rintro m - ⟨c, p⟩ ⟨d, q⟩ here there
    obtain ⟨rfl, rfl⟩ := here.determines there
    rfl
  · exact fun m _ m' _ x here there => here.unique there

/-- There are as many implicants as cubes that are there. -/
theorem length_flatten (known : AfterRounds n S k buckets) :
    buckets.flatten.length = Cube.count S k + Cube.countPrime S k := by
  have cubes : {c | ∃ a ∈ buckets.flatten, a.Represents c} = {c : Cube | c.Present S k} :=
    Set.ext known.present
  rw [← Cube.ncard_present, ← cubes]
  refine (ncard_partners known.once ?_ ?_ ?_).symm
  · intro a member
    obtain ⟨c, repr, -⟩ := known.represents member
    exact ⟨c, repr⟩
  · exact fun a _ c d first second => first.cube_unique second
  · exact fun a _ b _ c first second => first.unique second

end AfterRounds

/-! ## Reports -/

namespace Event

/-- Whether two implicants were combined. -/
def isMerge : Event → Bool
  | .merged .. => true
  | _ => false

/-- Whether a round of merging ended. -/
def endsRound : Event → Bool
  | .roundEnded .. => true
  | _ => false

theorem eq_repeatsDropped {before after : Nat} {e : Event} (member : e ∈ ofRepeats before after) :
    e = .repeatsDropped before after := by
  unfold ofRepeats at member
  split at member
  · cases member
  · exact List.mem_singleton.mp member

/-- A round reports each of its merges, and its end once, as the last. -/
theorem exists_details (n : Arity) (index : Nat) (r : Round) :
    ∃ details, ofRound n index r =
        details ++ [.roundEnded index r.merges.length r.implicants.length] ∧
      details.countP isMerge = r.merges.length ∧ ∀ e ∈ details, e.endsRound = false := by
  let repeats := (r.pooled.zip r.buckets).flatMap fun entry =>
    ofRepeats entry.1.length entry.2.length
  have dropped : ∀ e ∈ repeats, e.isMerge = false ∧ e.endsRound = false := by
    intro e member
    obtain ⟨entry, -, found⟩ := List.mem_flatMap.mp member
    rw [eq_repeatsDropped found]
    exact ⟨rfl, rfl⟩
  refine ⟨_, rfl, ?_, ?_⟩
  · have all : (r.merges.map fun m =>
        Event.merged n.size m.left m.right m.result).countP isMerge = r.merges.length := by
      rw [List.countP_map, List.countP_eq_length]
      exact fun m _ => rfl
    have none : repeats.countP isMerge = 0 :=
      List.countP_eq_zero.mpr fun e member => by simp [(dropped e member).1]
    rw [List.countP_append, all, none, Nat.add_zero]
  · intro e member
    rcases List.mem_append.mp member with new | old
    · obtain ⟨m, -, rfl⟩ := List.mem_map.mp new
      rfl
    · exact (dropped e old).2

/-- The reports of rounds of which `done` others came before. -/
def ofRounds (n : Arity) (done : Nat) (rounds : List Round) : List Event :=
  (rounds.zipIdx done).flatMap fun entry => ofRound n (entry.2 + 1) entry.1

theorem ofRounds_append (n : Arity) (done : Nat) (first later : List Round) :
    ofRounds n done (first ++ later) =
      ofRounds n done first ++ ofRounds n (done + first.length) later := by
  rw [ofRounds, List.zipIdx_append, List.flatMap_append]
  rfl

theorem ofRounds_cons (n : Arity) (done : Nat) (r : Round) (later : List Round) :
    ofRounds n done (r :: later) = ofRound n (done + 1) r ++ ofRounds n (done + 1) later := by
  rw [ofRounds, List.zipIdx_cons, List.flatMap_cons]
  rfl

/-- Reports of rounds end with the end of the last one. -/
theorem getLast?_ofRounds (n : Arity) (done : Nat) (others : List Round) (last : Round) :
    (ofRounds n done (others ++ [last])).getLast? =
      some (.roundEnded (done + others.length + 1) last.merges.length last.implicants.length) := by
  obtain ⟨details, own, -⟩ := exists_details n (done + others.length + 1) last
  have tail : ofRounds n (done + others.length) [last] =
      ofRound n (done + others.length + 1) last := List.flatMap_singleton ..
  rw [ofRounds_append, tail, own, ← List.append_assoc, List.getLast?_concat]

/-- The reports of a round follow the end of the round before. -/
theorem exists_before (n : Arity) {g : Generation} {i : Nat} {round : Round}
    (ran : g.rounds[i]? = some round) :
    ∃ before after, ofGeneration n g = before ++ ofRound n (i + 1) round ++ after ∧
      (before = [] ∧ i = 0 ∨ ∃ merges implicants,
        before.getLast? = some (.roundEnded i merges implicants)) := by
  obtain ⟨bound, here⟩ := List.getElem?_eq_some_iff.mp ran
  obtain ⟨earlier, later, rounds, rfl⟩ :
      ∃ earlier later, g.rounds = earlier ++ round :: later ∧ earlier.length = i := by
    refine ⟨g.rounds.take i, g.rounds.drop (i + 1), ?_, List.length_take_of_le (Nat.le_of_lt bound)⟩
    rw [← here, List.getElem_cons_drop, List.take_append_drop]
  refine ⟨ofRounds n 0 earlier, ofRounds n (earlier.length + 1) later, ?_, ?_⟩
  · have all : ofGeneration n g = ofRounds n 0 g.rounds := rfl
    rw [all, rounds, ofRounds_append, ofRounds_cons, Nat.zero_add, List.append_assoc]
  · rcases List.eq_nil_or_concat' earlier with rfl | ⟨others, previous, rfl⟩
    · exact .inl ⟨rfl, rfl⟩
    · refine .inr ⟨previous.merges.length, previous.implicants.length, ?_⟩
      rw [getLast?_ofRounds, Nat.zero_add, List.length_append, List.length_singleton]

end Event

/-- **The work of a round.** The round after `i` others combines as many pairs as there are cubes
of dimension `i + 1` within the minterms, times this dimension, and leaves as many implicants
as there are such cubes and smaller prime ones. Both are the numbers it reports at its end, and
since the end of the round before it reported each combination. -/
theorem generate_merges_exact (n : Arity) (S : List Word) (ascending : S.Pairwise (· < ·))
    (inRange : ∀ x ∈ S, x.toNat < 2 ^ n.size) (i : Nat) (round : Round)
    (ran : (generate n S).rounds[i]? = some round) :
    round.merges.length = (i + 1) * Cube.count S (i + 1) ∧
    round.implicants.length = Cube.count S (i + 1) + Cube.countPrime S (i + 1) ∧
    ∃ before details after,
      Event.ofGeneration n (generate n S) = before ++ (details ++ [.roundEnded (i + 1)
        ((i + 1) * Cube.count S (i + 1)) (Cube.count S (i + 1) + Cube.countPrime S (i + 1))]) ++
          after ∧
      (before = [] ∧ i = 0 ∨ ∃ merges implicants,
        before.getLast? = some (.roundEnded i merges implicants)) ∧
      details.countP Event.isMerge = (i + 1) * Cube.count S (i + 1) ∧
      ∀ e ∈ details, e.endsRound = false := by
  have admitted : ∀ x ∈ S, n.admits x = true := fun x member =>
    Arity.admits_iff_lt.mpr (inRange x member)
  obtain ⟨stage, -, known, same⟩ := generate_round ascending admitted ran
  have merges : round.merges.length = (i + 1) * Cube.count S (i + 1) := by
    rw [same]
    exact known.length_merges admitted
  have implicants : round.implicants.length =
      Cube.count S (i + 1) + Cube.countPrime S (i + 1) := by
    rw [same]
    exact (known.next admitted).length_flatten
  obtain ⟨before, after, reports, start⟩ := Event.exists_before n ran
  obtain ⟨details, own, each, inside⟩ := Event.exists_details n (i + 1) round
  rw [own, merges, implicants] at reports
  exact ⟨merges, implicants, before, details, after, reports, start, merges ▸ each, inside⟩

/-- A square and a corner beside it: the five edges are combined in the first round, each from
one pair; in the second one the square is combined from two pairs of edges, and the edge to the
corner is the one smaller prime. -/
theorem generate_merges_exact_square :
    ∃ first second, (generate ⟨3, by decide⟩ [0, 1, 2, 3, 7]).rounds[0]? = some first ∧
      (generate ⟨3, by decide⟩ [0, 1, 2, 3, 7]).rounds[1]? = some second ∧
      first.merges.length = 5 ∧ second.merges.length = 2 ∧ second.implicants.length = 2 ∧
      Cube.count [0, 1, 2, 3, 7] 1 = 5 ∧ Cube.count [0, 1, 2, 3, 7] 2 = 1 ∧
      Cube.countPrime [0, 1, 2, 3, 7] 2 = 1 := by
  obtain ⟨first, second, ran, ranNext, five, two, both⟩ :
      ∃ first second, (generate ⟨3, by decide⟩ [0, 1, 2, 3, 7]).rounds[0]? = some first ∧
        (generate ⟨3, by decide⟩ [0, 1, 2, 3, 7]).rounds[1]? = some second ∧
        first.merges.length = 5 ∧ second.merges.length = 2 ∧ second.implicants.length = 2 :=
    ⟨_, _, rfl, rfl, rfl, rfl, rfl⟩
  obtain ⟨merges, -⟩ := generate_merges_exact ⟨3, by decide⟩ [0, 1, 2, 3, 7] (by decide)
    (by simp) 0 first ran
  obtain ⟨merges', implicants', -⟩ := generate_merges_exact ⟨3, by decide⟩ [0, 1, 2, 3, 7]
    (by decide) (by simp) 1 second ranNext
  have edges : 5 = (0 + 1) * Cube.count [0, 1, 2, 3, 7] 1 := five.symm.trans merges
  have square : 2 = (1 + 1) * Cube.count [0, 1, 2, 3, 7] 2 := two.symm.trans merges'
  have left : 2 = Cube.count [0, 1, 2, 3, 7] 2 + Cube.countPrime [0, 1, 2, 3, 7] 2 :=
    both.symm.trans implicants'
  refine ⟨first, second, ran, ranNext, five, two, both, ?_⟩
  omega

end TwoLevel
