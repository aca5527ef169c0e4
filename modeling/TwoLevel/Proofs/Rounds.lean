/-
# TwoLevel.Proofs.Rounds — what every round holds, and when the rounds end

`AfterRounds` is known of the start, and a round leads from one stage to the next. So it is
known of every stage that a generation passes through, with the number of rounds before it as
the dimension (`generate_stage`), and every round is the one that starts from the stage before
(`generate_round`).

The rounds end with the first one that merges nothing. Every round before it merged something,
that is, there is a cube of its dimension, and there is none of the next: the rounds that merge
are counted by the largest dimension of a cube within the minterms (`generate_length`). The
last round leaves everything in its place: nothing is used up, and distributing over buckets
what comes in the order of the buckets gives back the same list (`AfterRounds.flatten_eq`).
-/
import TwoLevel.Proofs.Consistency

namespace TwoLevel

set_option autoImplicit false

variable {n : Arity} {S : List Word} {k : Nat} {buckets : List (List Implicant)}

/-! ## The order of the buckets -/

/-- Entries of buckets by rank come in the order of their ranks. -/
theorem Bucketed.pairwise_ones (bucketed : Bucketed n buckets) :
    buckets.flatten.Pairwise fun a b => a.ones n ≤ b.ones n := by
  have rank {i : Nat} (bound : i < buckets.length) {a : Implicant} (member : a ∈ buckets[i]) :
      a.ones n = i := by
    rw [← List.getD_eq_getElem _ [] bound] at member
    exact bucketed.ones i a member
  rw [List.pairwise_flatten]
  constructor
  · intro bucket known
    obtain ⟨i, bound, rfl⟩ := List.getElem_of_mem known
    refine List.pairwise_of_forall_mem_list fun a left b right => ?_
    rw [rank bound left, rank bound right]
  · rw [List.pairwise_iff_getElem]
    intro i j boundI boundJ less a left b right
    rw [rank boundI left, rank boundJ right]
    exact Nat.le_of_lt less

/-- The entries of one rank are those of its bucket, in order. -/
theorem filter_flatten_eq_getD {rank : Implicant → Nat} {start : Nat}
    (ranked : ∀ i, ∀ a ∈ buckets.getD i [], rank a = start + i) (i : Nat) :
    (buckets.flatten.filter fun a => rank a == start + i) = buckets.getD i [] := by
  induction buckets generalizing start i with
  | nil => rfl
  | cons bucket rest ih =>
      have first : ∀ a ∈ bucket, rank a = start := ranked 0
      have later : ∀ j, ∀ a ∈ rest.getD j [], rank a = start + 1 + j := fun j a member =>
        (ranked (j + 1) a member).trans (by omega)
      rw [List.flatten_cons, List.filter_append]
      cases i with
      | zero =>
          have own : (bucket.filter fun a => rank a == start + 0) = bucket :=
            List.filter_eq_self.mpr fun a member => by simp [first a member]
          have others : (rest.flatten.filter fun a => rank a == start + 0) = [] := by
            refine List.filter_eq_nil_iff.mpr fun a member => ?_
            obtain ⟨j, inBucket⟩ := mem_flatten_iff_getD.mp member
            have above := later j a inBucket
            rw [beq_iff_eq]
            omega
          rw [own, others, List.append_nil]
          rfl
      | succ j =>
          have none : (bucket.filter fun a => rank a == start + (j + 1)) = [] :=
            List.filter_eq_nil_iff.mpr fun a member => by simp [first a member]
          have shift : start + (j + 1) = start + 1 + j := by omega
          rw [none, List.nil_append, shift, ih later]
          rfl

/-- Lists of buckets with the same bucket at every position have the same entries in the same
order, even if one of them goes on with empty buckets. -/
theorem flatten_eq_of_getD {others : List (List Implicant)}
    (same : ∀ i, buckets.getD i [] = others.getD i []) : buckets.flatten = others.flatten := by
  induction buckets generalizing others with
  | nil =>
      refine (List.flatten_eq_nil_iff.mpr fun bucket known => ?_).symm
      obtain ⟨i, bound, rfl⟩ := List.getElem_of_mem known
      rw [← List.getD_eq_getElem _ [] bound, ← same]
      rfl
  | cons bucket rest ih =>
      cases others with
      | nil =>
          refine List.flatten_eq_nil_iff.mpr fun bucket known => ?_
          obtain ⟨i, bound, rfl⟩ := List.getElem_of_mem known
          rw [← List.getD_eq_getElem _ [] bound, same]
          rfl
      | cons other others =>
          have first : bucket = other := same 0
          rw [List.flatten_cons, List.flatten_cons, first, ih fun i => same (i + 1)]

/-! ## A round that merges nothing -/

/-- Where nothing is merged, no two implicants combine. -/
theorem Bucketed.alone_of_quiet (bucketed : Bucketed n buckets)
    (quiet : Merge.ofBuckets n buckets = []) {a b : Implicant} (left : a ∈ buckets.flatten)
    (right : b ∈ buckets.flatten) : a.differingBit b n = none := by
  have below {a b : Implicant} (left : a ∈ buckets.flatten) (right : b ∈ buckets.flatten)
      (less : a.ones n < b.ones n) : a.differingBit b n = none := by
    rw [← Implicant.combine_eq_none_iff]
    by_contra near
    obtain ⟨e, merged⟩ := Option.ne_none_iff_exists'.mp near
    have known : ⟨a, b, e⟩ ∈ Merge.ofBuckets n buckets :=
      bucketed.mem_merges.mpr ⟨left, right, less, merged⟩
    rw [quiet] at known
    cases known
  by_contra near
  rcases bucketed.adjacent left right near with more | fewer
  · exact near (below left right (by omega))
  · rw [Implicant.differingBit_comm] at near
    exact near (below right left (by omega))

/-- Where no two implicants combine, everything is left over. -/
theorem Round.unusedFrom_eq_flatten (below : List Implicant)
    (alone : ∀ a ∈ buckets.flatten, ∀ b ∈ (below :: buckets).flatten, a.differingBit b n = none) :
    Round.unusedFrom n (ByMask.ofList below) buckets = buckets.flatten := by
  induction buckets generalizing below with
  | nil => rfl
  | cons bucket rest ih =>
      have later : ∀ a ∈ rest.flatten, ∀ b ∈ (bucket :: rest).flatten,
          a.differingBit b n = none := by
        intro a member b other
        exact alone a (List.mem_append_right _ member) b (List.mem_append_right _ other)
      rw [Round.unusedFrom, ih bucket later, List.flatten_cons]
      congr 1
      refine List.filter_eq_self.mpr fun a member => ?_
      have here : a ∈ (bucket :: rest).flatten := List.mem_append_left _ member
      have low : Round.meets n (ByMask.ofList below) a = false :=
        Round.meets_eq_false_iff.mpr fun b other => alone a here b (List.mem_append_left _ other)
      have high : Round.meets n (ByMask.ofList (rest.headD [])) a = false := by
        refine Round.meets_eq_false_iff.mpr fun b other => alone a here b ?_
        cases rest with
        | nil => cases other
        | cons above rest => simp only [List.headD_cons] at other; simp [other]
      rw [low, high]
      rfl

/-- A round that merges nothing changes nothing. -/
theorem AfterRounds.flatten_eq (known : AfterRounds n S k buckets)
    (quiet : (Round.ofBuckets n buckets).merges = []) :
    (Round.ofBuckets n buckets).buckets.flatten = buckets.flatten := by
  have quiet : Merge.ofBuckets n buckets = [] := quiet
  have unused : Round.unusedFrom n [] buckets = buckets.flatten :=
    Round.unusedFrom_eq_flatten [] fun a left b right =>
      known.bucketed.alone_of_quiet quiet left right
  have outcome : (Round.ofBuckets n buckets).buckets =
      (bucketsByOnes n buckets.flatten).map distinct := by
    rw [Round.ofBuckets, quiet, unused]
    rfl
  have own (i : Nat) : (buckets.flatten.filter fun a => a.ones n == i) = buckets.getD i [] := by
    have ranked : ∀ i, ∀ a ∈ buckets.getD i [], a.ones n = 0 + i := fun i a member =>
      (known.bucketed.ones i a member).trans (Nat.zero_add i).symm
    simpa using filter_flatten_eq_getD ranked i
  have cubes : AllCubes buckets.flatten := fun a member => by
    obtain ⟨c, repr, -⟩ := known.bucketed.cubes a member
    exact ⟨c, repr⟩
  refine flatten_eq_of_getD fun i => ?_
  rw [outcome, map_distinct_getD, bucketsByOnes_getD, ← own]
  split
  · exact distinct_eq_self (cubes.of_subset (List.filter_subset_self _)) (known.once.filter _)
  · rename_i beyond
    refine (List.filter_eq_nil_iff.mpr fun a _ => ?_).symm
    have small := a.ones_le n
    rw [beq_iff_eq]
    omega

/-! ## The stages of a generation -/

/-- The buckets at the start and after every round. -/
def Generation.stages (g : Generation) : List (List (List Implicant)) :=
  g.start :: g.rounds.map (·.buckets)

theorem Generation.reports_eq (g : Generation) : g.reports = g.stages.map List.flatten := by
  rw [reports, stages, List.map_cons, List.map_map]
  rfl

/-- Every round starts from the buckets that the one before it left. -/
theorem AfterRounds.round (known : AfterRounds n S k buckets)
    (admitted : ∀ x ∈ S, n.admits x = true) {limit i : Nat} {round : Round}
    (ran : (roundsFrom n limit buckets)[i]? = some round) :
    ∃ before, (buckets :: (roundsFrom n limit buckets).map (·.buckets))[i]? = some before ∧
      AfterRounds n S (k + i) before ∧ round = Round.ofBuckets n before := by
  induction limit generalizing k buckets i with
  | zero => cases ran
  | succ limit ih =>
      rw [roundsFrom] at ran ⊢
      cases i with
      | zero =>
          refine ⟨buckets, rfl, known, ?_⟩
          split at ran
          · exact (Option.some.inj ran).symm
          · exact (Option.some.inj ran).symm
      | succ i =>
          split at ran
          · cases ran
          · rename_i busy
            obtain ⟨before, here, reached, same⟩ := ih (known.next admitted) ran
            have count : k + 1 + i = k + (i + 1) := by omega
            refine ⟨before, ?_, count ▸ reached, same⟩
            rw [if_neg busy]
            exact here

theorem generate_round (ascending : S.Pairwise (· < ·)) (admitted : ∀ x ∈ S, n.admits x = true)
    {i : Nat} {round : Round} (ran : (generate n S).rounds[i]? = some round) :
    ∃ before, (generate n S).stages[i]? = some before ∧ AfterRounds n S i before ∧
      round = Round.ofBuckets n before := by
  have start := afterRounds_start ascending admitted
  obtain ⟨before, here, reached, same⟩ := start.round admitted ran
  exact ⟨before, here, Nat.zero_add i ▸ reached, same⟩

theorem generate_stage (ascending : S.Pairwise (· < ·)) (admitted : ∀ x ∈ S, n.admits x = true)
    (here : (generate n S).stages[k]? = some buckets) : AfterRounds n S k buckets := by
  cases k with
  | zero => exact Option.some.inj here ▸ afterRounds_start ascending admitted
  | succ k =>
      rw [Generation.stages, List.getElem?_cons_succ, List.getElem?_map,
        Option.map_eq_some_iff] at here
      obtain ⟨round, ran, rfl⟩ := here
      obtain ⟨before, -, reached, rfl⟩ := generate_round ascending admitted ran
      exact reached.next admitted

/-- There is one round for every dimension that cubes within the minterms have above zero, and
one more. -/
theorem generate_length (ascending : S.Pairwise (· < ·)) (admitted : ∀ x ∈ S, n.admits x = true)
    (some : S ≠ []) : ∃ D, (generate n S).rounds.length = D + 1 ∧
      IsGreatest {d | ∃ c : Cube, c.Within S ∧ c.dimension = d} D := by
  obtain ⟨init, last, rounds, -, busy, -, -, small⟩ := generate_rounds ascending admitted
  refine ⟨init.length, by rw [rounds, List.length_append, List.length_singleton], ?_, ?_⟩
  · cases length : init.length with
    | zero =>
        obtain ⟨x, rest, rfl⟩ := List.exists_cons_of_ne_nil some
        exact ⟨Cube.point x, Cube.within_point.mpr List.mem_cons_self, Cube.dimension_point x⟩
    | succ j =>
        -- the last of the rounds that merged found a cube of its own dimension
        have bound : j < init.length := by omega
        have ran : (generate n S).rounds[j]? = .some init[j] := by
          rw [rounds, List.getElem?_append_left bound, List.getElem?_eq_getElem bound]
        obtain ⟨before, -, reached, same⟩ := generate_round ascending admitted ran
        obtain ⟨m, merged⟩ := List.exists_mem_of_ne_nil _ (busy _ (List.getElem_mem bound))
        rw [same] at merged
        obtain ⟨c, -, -, whole, size⟩ := reached.result merged
        exact ⟨c, whole, size⟩
  · rintro d ⟨c, whole, rfl⟩
    exact small c whole

/-- The last two reports of a generation are the same list. -/
theorem generate_reports_last (ascending : S.Pairwise (· < ·))
    (admitted : ∀ x ∈ S, n.admits x = true) {D : Nat}
    (length : (generate n S).rounds.length = D + 1) :
    (generate n S).reports[D]? = (generate n S).reports[D + 1]? := by
  obtain ⟨init, last, rounds, quiet, -⟩ := generate_rounds ascending admitted
  have count : init.length = D := by
    rw [rounds, List.length_append, List.length_singleton] at length
    omega
  have ran : (generate n S).rounds[D]? = some last := by
    rw [rounds, ← count, List.getElem?_concat_length]
  obtain ⟨before, here, reached, rfl⟩ := generate_round ascending admitted ran
  have next : (generate n S).stages[D + 1]? = some (Round.ofBuckets n before).buckets := by
    rw [Generation.stages, List.getElem?_cons_succ, List.getElem?_map, ran]
    rfl
  rw [Generation.reports_eq, List.getElem?_map, List.getElem?_map, here, next, Option.map_some,
    Option.map_some, reached.flatten_eq quiet]

/-! ## What is reported -/

/-- The report holds the cubes of dimension `k` within `S` and the prime ones of smaller
dimension, each once, those with fewer positive literals first. -/
structure ReportsStage (n : Arity) (S : List Word) (k : Nat) (report : List Implicant) : Prop where
  once : report.Nodup
  cubes : ∀ a ∈ report, ∃ c : Cube, a.Represents c
  exact : ∀ c : Cube, (∃ a ∈ report, a.Represents c) ↔
    (c.Within S ∧ c.dimension = k) ∨ (c.IsPrime S ∧ c.dimension < k)
  ordered : report.Pairwise fun a b => a.ones n ≤ b.ones n

theorem Cube.present_iff {c : Cube} :
    c.Present S k ↔ (c.Within S ∧ c.dimension = k) ∨ (c.IsPrime S ∧ c.dimension < k) := by
  constructor
  · rintro ⟨whole, size | ⟨small, prime⟩⟩
    · exact .inl ⟨whole, size⟩
    · exact .inr ⟨prime, small⟩
  · rintro (⟨whole, size⟩ | ⟨prime, small⟩)
    · exact ⟨whole, .inl size⟩
    · exact ⟨prime.within, .inr ⟨small, prime⟩⟩

theorem AfterRounds.reportsStage (known : AfterRounds n S k buckets) :
    ReportsStage n S k buckets.flatten where
  once := known.once
  cubes a member := by
    obtain ⟨c, repr, -⟩ := known.represents member
    exact ⟨c, repr⟩
  exact c := (known.present c).trans Cube.present_iff
  ordered := known.bucketed.pairwise_ones

/-- A run on these minterms records the reports of their generation. -/
theorem rounds_eq_reports {config : Config} {minterms : List Word} {r : Minimization} {t : Trace}
    (ascending : S.Pairwise (· < ·)) (same : ∀ x, x ∈ minterms ↔ x ∈ S)
    (proper : NotConstant n minterms)
    (answered : minimizeTraced config minterms n.size = .ok (r, t)) :
    t.rounds = (generate n S).reports := by
  have list : Ascending.ofList minterms = S := by
    refine Ascending.eq_of_mem_iff (Ascending.pairwise_ofList minterms) ascending fun x => ?_
    rw [Ascending.mem_ofList, same]
  obtain ⟨-, inRange, course⟩ := minimizeTraced_eq_ok_iff.mp answered
  obtain ⟨choice, -, rfl, -⟩ := course.exists_choice_cover inRange proper
  rw [list]
  rfl

/-- **The rounds of a generation.** With `D` the largest dimension of a cube within the
minterms, the generation reports `D + 2` times, and `D` rounds of a run merged something. The
`k`-th report holds exactly the cubes of dimension `k` and the prime ones of smaller dimension,
in the order of their positive literals, and the last two reports are the same list. -/
theorem generate_reports_exact (n : Arity) (S : List Word) (ascending : S.Pairwise (· < ·))
    (inRange : ∀ x ∈ S, x.toNat < 2 ^ n.size) (some : S ≠ []) :
    ∃ D, IsGreatest {d | ∃ c : Cube, c.Within S ∧ c.dimension = d} D ∧ D ≤ n.size ∧
      (generate n S).reports.length = D + 2 ∧
      (∀ k ≤ D + 1, ∃ report, (generate n S).reports[k]? = .some report ∧
        ReportsStage n S k report) ∧
      (generate n S).reports[D]? = (generate n S).reports[D + 1]? ∧
      ∀ config minterms r t, (∀ x, x ∈ minterms ↔ x ∈ S) → NotConstant n minterms →
        minimizeTraced config minterms n.size = .ok (r, t) →
          t.rounds = (generate n S).reports ∧ t.mergeRounds = D := by
  have admitted : ∀ x ∈ S, n.admits x = true := fun x member =>
    Arity.admits_iff_lt.mpr (inRange x member)
  obtain ⟨D, length, greatest⟩ := generate_length ascending admitted some
  have reports : (generate n S).reports.length = D + 2 := by
    rw [Generation.reports, List.length_cons, List.length_map, length]
  refine ⟨D, greatest, ?_, reports, fun k early => ?_, ?_, ?_⟩
  · obtain ⟨⟨c, whole, size⟩, -⟩ := greatest
    exact size ▸ (whole.isOver admitted).dimension_le
  · have bound : k < (generate n S).stages.length := by
      rw [Generation.stages, List.length_cons, List.length_map, length]
      omega
    have here := List.getElem?_eq_getElem bound
    refine ⟨_, ?_, (generate_stage ascending admitted here).reportsStage⟩
    rw [Generation.reports_eq, List.getElem?_map, here]
    rfl
  · exact generate_reports_last ascending admitted length
  · intro config minterms r t same proper answered
    have recorded := rounds_eq_reports ascending same proper answered
    refine ⟨recorded, ?_⟩
    rw [Trace.mergeRounds, recorded, reports, Nat.add_sub_cancel]

/-- A square and a corner of three variables beside it: the square is found in the second
round, in which the edge that joins the corner to it is kept as a prime of smaller dimension. -/
theorem generate_reports_exact_square :
    (generate ⟨3, by decide⟩ [0, 1, 2, 3, 7]).reports.length = 4 ∧
      IsGreatest {d | ∃ c : Cube, c.Within [0, 1, 2, 3, 7] ∧ c.dimension = d} 2 ∧
      ReportsStage ⟨3, by decide⟩ [0, 1, 2, 3, 7] 2
        [⟨[0, 1, 2, 3], 3, 0⟩, ⟨[3, 7], 4, 3⟩] ∧
      ∃ r t, minimizeTraced {} [7, 3, 0, 1, 2, 3] 3 = .ok (r, t) ∧ t.mergeRounds = 2 := by
  obtain ⟨D, greatest, -, length, stages, -, runs⟩ :=
    generate_reports_exact ⟨3, by decide⟩ [0, 1, 2, 3, 7] (by decide) (by simp) (by simp)
  have four : (generate ⟨3, by decide⟩ [0, 1, 2, 3, 7]).reports.length = 4 := by decide
  obtain rfl : D = 2 := by omega
  obtain ⟨report, here, stage⟩ := stages 2 (by decide)
  obtain rfl : [⟨[0, 1, 2, 3], 3, 0⟩, ⟨[3, 7], 4, 3⟩] = report := Option.some.inj here
  refine ⟨four, greatest, stage, _, _, rfl, (runs {} [7, 3, 0, 1, 2, 3] _ _ ?_ ?_ rfl).2⟩
  · intro x
    simp only [List.mem_cons]
    grind
  · exact ⟨⟨7, by decide⟩, 4, by decide, by decide⟩

end TwoLevel
