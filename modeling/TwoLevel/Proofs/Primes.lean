/-
# TwoLevel.Proofs.Primes — generation finds exactly the prime cubes

After `k` rounds the cubes of dimension `k` within the minterms should be there, and
the prime ones of smaller dimension, which nothing merges with any more
(`Cube.Present`). `AfterRounds` says that buckets hold exactly these, each once. It holds of
the single minterms (`afterRounds_start`) and a round leads from one stage to the next
(`AfterRounds.next`): a cube of dimension `k + 1` is a merge of its two halves, a prime cube
is part of no merge, and a cube that is not prime has a mirror image to merge with.

A round merges nothing exactly when no larger cube is left (`AfterRounds.merges_eq_nil_iff`).
No cube has more free positions than there are variables, so the bound on the number
of rounds is never what ends them (`AfterRounds.run`), and what is present then are the prime
cubes (`mem_primes`).
-/
import TwoLevel.Prime.Generation
import TwoLevel.Proofs.Merging

namespace TwoLevel

set_option autoImplicit false

/-- The cubes within `S` that are there after `k` rounds. -/
def Cube.Present (S : List Word) (k : Nat) (c : Cube) : Prop :=
  c.Within S ∧ (c.dimension = k ∨ (c.dimension < k ∧ c.IsPrime S))

/-- The buckets hold the cubes that are there after `k` rounds, each once. -/
structure AfterRounds (n : Arity) (S : List Word) (k : Nat) (buckets : List (List Implicant)) :
    Prop where
  bucketed : Bucketed n buckets
  once : buckets.flatten.Nodup
  present : ∀ c, (∃ a ∈ buckets.flatten, a.Represents c) ↔ c.Present S k

/-- The merge joins the halves of a cube along its free position `p`, on the left the one in
which it is clear. -/
structure Merge.Joins (m : Merge) (c : Cube) (p : Nat) : Prop where
  free : c.mask.bit p = true
  left : m.left.Represents (c.narrow p)
  right : m.right.Represents ((c.narrow p).mirror p)
  result : m.result.Represents c

variable {n : Arity} {S : List Word} {k : Nat} {buckets : List (List Implicant)}

namespace AfterRounds

theorem represents (known : AfterRounds n S k buckets) {a : Implicant}
    (member : a ∈ buckets.flatten) :
    ∃ c, a.Represents c ∧ c.Over n ∧ c.Present S k := by
  obtain ⟨c, repr, isOver⟩ := known.bucketed.cubes a member
  exact ⟨c, repr, isOver, (known.present c).mp ⟨a, member, repr⟩⟩

/-- A merge joins two halves of a cube of dimension `k + 1`: the smaller cubes present are
prime. -/
theorem exists_joins (known : AfterRounds n S k buckets) {m : Merge}
    (merged : m ∈ Merge.ofBuckets n buckets) :
    ∃ c p, c.Over n ∧ c.Within S ∧ c.dimension = k + 1 ∧ m.Joins c p := by
  obtain ⟨left, right, less, combined⟩ := known.bucketed.mem_merges.mp merged
  obtain ⟨c, reprLeft, overLeft, wholeLeft, size⟩ := known.represents left
  obtain ⟨d, reprRight, overRight, wholeRight, -⟩ := known.represents right
  obtain ⟨p, used, held, rfl, reached⟩ :=
    (Implicant.combine_eq_some_iff reprLeft reprRight overLeft overRight).mp combined
  have below : p < 64 := lt_of_lt_of_le used n.size_le
  have whole := Cube.Within.widen below wholeLeft wholeRight
  -- the left part has fewer positive literals, so it is the half with `p` clear
  have low : c.base.bit p = false := by
    by_contra high
    have step := ones_adjacent reprLeft reprRight overLeft overRight below held
    rw [if_pos (Bool.eq_true_of_not_eq_false high)] at step
    omega
  have half : (c.widen p).narrow p = c := Cube.narrow_widen below held low
  refine ⟨c.widen p, p, Cube.Over.widen below overLeft overRight, whole, ?_, ?_⟩
  · rw [Cube.dimension_widen below held]
    rcases size with equal | ⟨-, prime⟩
    · rw [equal]
    · exact absurd whole ((Cube.isPrime_iff_widen.mp prime).2 p below held)
  · have free : (c.widen p).mask.bit p = true := by simp [Cube.widen, Word.bit_single below]
    exact ⟨free, half.symm ▸ reprLeft, half.symm ▸ reprRight, reached⟩

theorem result (known : AfterRounds n S k buckets) {m : Merge}
    (merged : m ∈ Merge.ofBuckets n buckets) :
    ∃ c, m.result.Represents c ∧ c.Over n ∧ c.Within S ∧ c.dimension = k + 1 := by
  obtain ⟨c, p, isOver, whole, size, joins⟩ := known.exists_joins merged
  exact ⟨c, joins.result, isOver, whole, size⟩

/-- The halves of a cube of the next dimension are merged along every free position. -/
theorem exists_merge (known : AfterRounds n S k buckets) {c : Cube} {p : Nat} (isOver : c.Over n)
    (whole : c.Within S) (size : c.dimension = k + 1) (free : c.mask.bit p = true) :
    ∃ m ∈ Merge.ofBuckets n buckets, m.Joins c p := by
  have below := Word.lt_of_bit free
  have used : p < n.size := Arity.admits_iff_bit.mp isOver.mask p free
  have held := Cube.narrow_mask_bit (c := c) below
  have low : (c.narrow p).base.bit p = false := Cube.base_bit (c := c) free
  have half : (c.narrow p).dimension = k := by have := Cube.dimension_narrow free; omega
  have near : c.narrow p ≤ c := Cube.narrow_le free
  have far : (c.narrow p).mirror p ≤ c := by
    have inside := Cube.mirror_le_widen (c := c.narrow p) below
    rwa [Cube.widen_narrow free] at inside
  obtain ⟨a, left, reprLeft⟩ := (known.present _).mpr ⟨whole.of_le near, .inl half⟩
  obtain ⟨b, right, reprRight⟩ := (known.present _).mpr ⟨whole.of_le far, .inl half⟩
  have overLeft : (c.narrow p).Over n := fun x member => isOver x (near x member)
  have overRight : ((c.narrow p).mirror p).Over n := fun x member => isOver x (far x member)
  obtain ⟨e, merged, reached⟩ :=
    Implicant.exists_combine reprLeft reprRight overLeft overRight used held
  have step := ones_adjacent reprLeft reprRight overLeft overRight below held
  rw [low, if_neg Bool.false_ne_true] at step
  have less : a.ones n < b.ones n := Nat.lt_of_lt_of_eq (Nat.lt_succ_self _) step.symm
  rw [Cube.widen_narrow free] at reached
  exact ⟨⟨a, b, e⟩, known.bucketed.mem_merges.mpr ⟨left, right, less, merged⟩,
    free, reprLeft, reprRight, reached⟩

/-- A cube of the next dimension is a merge of its halves. -/
theorem exists_result (known : AfterRounds n S k buckets) {c : Cube} (isOver : c.Over n)
    (whole : c.Within S) (size : c.dimension = k + 1) :
    ∃ m ∈ Merge.ofBuckets n buckets, m.result.Represents c := by
  have positive : c.mask.positions.Nonempty := by
    rw [← Finset.card_pos, Word.card_positions]
    exact Nat.lt_of_lt_of_eq (Nat.succ_pos k) size.symm
  obtain ⟨p, free⟩ := positive
  obtain ⟨m, merged, joins⟩ := known.exists_merge isOver whole size (Word.mem_positions.mp free)
  exact ⟨m, merged, joins.result⟩

/-- Exactly the prime cubes are left over. -/
theorem alone_iff (known : AfterRounds n S k buckets) {a : Implicant} {c : Cube}
    (member : a ∈ buckets.flatten) (repr : a.Represents c) :
    (∀ b ∈ buckets.flatten, a.differingBit b n = none) ↔ c.IsPrime S := by
  obtain ⟨c', again, isOver, whole, size⟩ := known.represents member
  obtain rfl := repr.cube_unique again
  constructor
  · intro alone
    rcases size with equal | ⟨-, prime⟩
    · refine Cube.isPrime_iff_widen.mpr ⟨whole, fun p below held larger => ?_⟩
      have inside := Cube.mirror_le_widen (c := c) below
      have far := larger.of_le inside
      obtain ⟨b, other, reprOther⟩ := (known.present _).mpr ⟨far, .inl equal⟩
      obtain ⟨d, againOther, overOther, -⟩ := known.represents other
      obtain rfl := reprOther.cube_unique againOther
      have free : (c.widen p).mask.bit p = true := by
        simp [Cube.widen, Word.bit_single below]
      have used := Arity.admits_iff_bit.mp (Cube.Over.widen below isOver overOther).mask p free
      have near := (Implicant.differingBit_eq_some_iff repr reprOther isOver overOther).mpr
        ⟨p, used, held, rfl, rfl⟩
      simp [alone b other] at near
    · exact prime
  · intro prime b other
    by_contra near
    obtain ⟨w, found⟩ := Option.ne_none_iff_exists'.mp near
    obtain ⟨d, reprOther, overOther, wholeOther, -⟩ := known.represents other
    obtain ⟨p, used, held, rfl, -⟩ :=
      (Implicant.differingBit_eq_some_iff repr reprOther isOver overOther).mp found
    have below : p < 64 := lt_of_lt_of_le used n.size_le
    exact (Cube.isPrime_iff_widen.mp prime).2 p below held
      (Cube.Within.widen below whole wholeOther)

/-- A round leads to the next known. -/
theorem next (known : AfterRounds n S k buckets) (admitted : ∀ x ∈ S, n.admits x = true) :
    AfterRounds n S (k + 1) (Round.ofBuckets n buckets).buckets := by
  obtain ⟨bucketed, once, kept⟩ := known.bucketed.round
  refine ⟨bucketed, once, fun c => ?_⟩
  constructor
  · rintro ⟨a, member, repr⟩
    rcases List.mem_append.mp ((kept a).mp member) with new | old
    · obtain ⟨m, merged, rfl⟩ := List.mem_map.mp new
      obtain ⟨c', again, -, whole, size⟩ := known.result merged
      obtain rfl := repr.cube_unique again
      exact ⟨whole, .inl size⟩
    · obtain ⟨earlier, alone⟩ := known.bucketed.mem_unused.mp old
      have prime := (known.alone_iff earlier repr).mp alone
      obtain ⟨whole, size⟩ := (known.present c).mp ⟨a, earlier, repr⟩
      exact ⟨whole, .inr ⟨by omega, prime⟩⟩
  · rintro ⟨whole, size⟩
    rcases size with equal | ⟨small, prime⟩
    · obtain ⟨m, merged, repr⟩ := known.exists_result (whole.isOver admitted) whole equal
      refine ⟨m.result, (kept _).mpr (List.mem_append_left _ ?_), repr⟩
      exact List.mem_map_of_mem merged
    · have earlier : c.Present S k := by
        refine ⟨whole, ?_⟩
        rcases Nat.lt_succ_iff_lt_or_eq.mp small with less | equal
        · exact .inr ⟨less, prime⟩
        · exact .inl equal
      obtain ⟨a, member, repr⟩ := (known.present c).mpr earlier
      have left := known.bucketed.mem_unused.mpr ⟨member, (known.alone_iff member repr).mpr prime⟩
      exact ⟨a, (kept a).mpr (List.mem_append_right _ left), repr⟩

/-- A round merges nothing exactly when no larger cube is left. -/
theorem merges_eq_nil_iff (known : AfterRounds n S k buckets)
    (admitted : ∀ x ∈ S, n.admits x = true) :
    (Round.ofBuckets n buckets).merges = [] ↔ ∀ c : Cube, c.Within S → c.dimension ≤ k := by
  constructor
  · intro none c whole
    by_contra large
    obtain ⟨d, inside, size⟩ := Cube.exists_dimension (Nat.lt_of_not_le large)
    have part := whole.of_le inside
    obtain ⟨m, merged, -⟩ := known.exists_result (part.isOver admitted) part size
    have known : m ∈ (Round.ofBuckets n buckets).merges := merged
    rw [none] at known
    cases known
  · intro small
    refine List.eq_nil_iff_forall_not_mem.mpr fun m merged => ?_
    obtain ⟨c, -, -, whole, size⟩ := known.result merged
    have bound := small c whole
    omega

/-- The rounds end with the first one that merges nothing, and not because of the
bound on their number. No cube is larger than the round that was reached. -/
theorem run (known : AfterRounds n S k buckets) (admitted : ∀ x ∈ S, n.admits x = true)
    (limit : Nat) (early : k ≤ n.size) (enough : n.size < k + limit) :
    ∃ init last, roundsFrom n limit buckets = init ++ [last] ∧ last.merges = [] ∧
      (∀ r ∈ init, r.merges ≠ []) ∧ AfterRounds n S (k + init.length + 1) last.buckets ∧
      ∀ c : Cube, c.Within S → c.dimension ≤ k + init.length := by
  induction limit generalizing k buckets with
  | zero => omega
  | succ limit ih =>
      rw [roundsFrom]
      have later := known.next admitted
      have stops := known.merges_eq_nil_iff admitted
      split
      · rename_i empty
        have quiet := List.isEmpty_iff.mp empty
        refine ⟨[], _, rfl, quiet, ?_, later, stops.mp quiet⟩
        intro r member
        cases member
      · rename_i nonempty
        have busy : (Round.ofBuckets n buckets).merges ≠ [] :=
          fun quiet => nonempty (List.isEmpty_iff.mpr quiet)
        -- a merge is a cube of dimension `k + 1`, so there are more than `k` variables
        have room : k + 1 ≤ n.size := by
          by_contra full
          refine busy (stops.mpr fun c whole => ?_)
          have bound := (whole.isOver admitted).dimension_le
          omega
        obtain ⟨init, last, rounds, quiet, others, reached, small⟩ := ih later room (by omega)
        refine ⟨_ :: init, last, by rw [rounds]; rfl, quiet, ?_, ?_, ?_⟩
        · intro r member
          rcases List.mem_cons.mp member with rfl | further
          · exact busy
          · exact others r further
        · have count : k + 1 + init.length + 1 = k + (init.length + 1) + 1 := by omega
          exact count ▸ reached
        · intro c whole
          have bound := small c whole
          rw [List.length_cons]
          omega

end AfterRounds

/-! ## The whole generation -/

theorem Cube.eq_point {c : Cube} (single : c.dimension = 0) : c = Cube.point c.base := by
  have inside : Cube.point c.base ≤ c := by
    intro x member
    rw [Cube.mem_point.mp member]
    exact c.base_mem
  exact (Cube.eq_of_dimension_le inside (by simp [single])).symm

theorem mem_singles {a : Implicant} :
    a ∈ S.map Implicant.ofMinterm ↔ ∃ x ∈ S, a.Represents (Cube.point x) := by
  rw [List.mem_map]
  constructor
  · rintro ⟨x, member, rfl⟩
    exact ⟨x, member, Implicant.represents_ofMinterm x⟩
  · rintro ⟨x, member, repr⟩
    exact ⟨x, member, (Implicant.represents_ofMinterm x).unique repr⟩

/-- The single minterms are the cubes of dimension 0. -/
theorem afterRounds_start (ascending : S.Pairwise (· < ·)) (admitted : ∀ x ∈ S, n.admits x = true) :
    AfterRounds n S 0 (generate n S).start := by
  have cubes : ∀ a ∈ S.map Implicant.ofMinterm, ∃ c, a.Represents c ∧ c.Over n := by
    intro a member
    obtain ⟨x, inside, repr⟩ := mem_singles.mp member
    exact ⟨_, repr, (Cube.within_point.mpr inside).isOver admitted⟩
  have singles : (S.map Implicant.ofMinterm).Nodup := by
    refine List.Nodup.map (fun x y same => ?_) (ascending.imp UInt64.ne_of_lt)
    exact congrArg Implicant.base same
  -- nothing is repeated yet, so that dropping repetitions changes no bucket
  have same :
      (bucketsByOnes n (S.map Implicant.ofMinterm)).map distinct = (generate n S).start := by
    refine List.map_congr_left (fun bucket known => ?_) |>.trans (List.map_id _)
    rw [bucketsByOnes_eq] at known
    obtain ⟨i, -, rfl⟩ := List.mem_map.mp known
    refine distinct_eq_self (fun a member => ?_) (singles.filter _)
    obtain ⟨c, repr, -⟩ := cubes a (List.mem_filter.mp member).1
    exact ⟨c, repr⟩
  obtain ⟨bucketed, once, kept⟩ := bucketed_distinct cubes
  rw [same] at bucketed once kept
  refine ⟨bucketed, once, fun c => ?_⟩
  constructor
  · rintro ⟨a, member, repr⟩
    obtain ⟨x, inside, single⟩ := mem_singles.mp ((kept a).mp member)
    obtain rfl := repr.cube_unique single
    exact ⟨Cube.within_point.mpr inside, .inl (Cube.dimension_point x)⟩
  · rintro ⟨whole, size⟩
    have single : c.dimension = 0 := by omega
    rw [Cube.eq_point single] at whole ⊢
    refine ⟨Implicant.ofMinterm c.base, (kept _).mpr ?_, Implicant.represents_ofMinterm _⟩
    exact List.mem_map_of_mem (Cube.within_point.mp whole)

/-- The rounds of a generation end by themselves, with the prime cubes. -/
theorem generate_rounds (ascending : S.Pairwise (· < ·)) (admitted : ∀ x ∈ S, n.admits x = true) :
    ∃ init last, (generate n S).rounds = init ++ [last] ∧ last.merges = [] ∧
      (∀ r ∈ init, r.merges ≠ []) ∧ (generate n S).primes = last.buckets.flatten ∧
      AfterRounds n S (init.length + 1) last.buckets ∧
      ∀ c : Cube, c.Within S → c.dimension ≤ init.length := by
  have start := afterRounds_start ascending admitted
  obtain ⟨init, last, rounds, quiet, busy, reached, small⟩ :=
    start.run admitted (n.size + 1) (Nat.zero_le _) (by omega)
  rw [Nat.zero_add] at reached small
  refine ⟨init, last, rounds, quiet, busy, ?_, reached, small⟩
  have rounds : (generate n S).rounds = init ++ [last] := rounds
  rw [Generation.primes, Generation.reports, rounds, List.map_append, List.map_singleton,
    ← List.cons_append, List.getLastD_concat]
  rfl

/-- Every prime cube has its implicant. -/
theorem exists_mem_primes (ascending : S.Pairwise (· < ·)) (admitted : ∀ x ∈ S, n.admits x = true)
    {c : Cube} (prime : c.IsPrime S) : ∃ a ∈ (generate n S).primes, a.Represents c := by
  obtain ⟨init, last, -, -, -, primes, reached, small⟩ := generate_rounds ascending admitted
  have bound := small c prime.within
  have present : c.Present S (init.length + 1) := ⟨prime.within, .inr ⟨by omega, prime⟩⟩
  obtain ⟨a, member, repr⟩ := (reached.present c).mpr present
  exact ⟨a, primes ▸ member, repr⟩

theorem mem_primes (ascending : S.Pairwise (· < ·)) (admitted : ∀ x ∈ S, n.admits x = true)
    {a : Implicant} :
    a ∈ (generate n S).primes ↔ ∃ c : Cube, a.Represents c ∧ c.IsPrime S := by
  constructor
  · intro member
    obtain ⟨init, last, -, -, -, primes, reached, small⟩ := generate_rounds ascending admitted
    obtain ⟨c, repr, -, whole, size⟩ := reached.represents (primes ▸ member)
    have bound := small c whole
    rcases size with equal | ⟨-, prime⟩
    · omega
    · exact ⟨c, repr, prime⟩
  · rintro ⟨c, repr, prime⟩
    obtain ⟨a, member, again⟩ := exists_mem_primes ascending admitted prime
    exact repr.unique again ▸ member

theorem primes_nodup (ascending : S.Pairwise (· < ·)) (admitted : ∀ x ∈ S, n.admits x = true) :
    (generate n S).primes.Nodup := by
  obtain ⟨init, last, -, -, -, primes, reached, -⟩ := generate_rounds ascending admitted
  exact primes ▸ reached.once

/-- **Generation is exact.** On the strictly ascending list of a function's minterms the
rounds end by themselves, and the implicants present then are, each once, the prime
ones: those whose cube lies within the minterms and in no other cube that does. The
minterms of each are the words of its cube, ascending. -/
theorem primes_exact (n : Arity) (S : List Word) (ascending : S.Pairwise (· < ·))
    (inRange : ∀ x ∈ S, x.toNat < 2 ^ n.size) :
    (∃ init last, (generate n S).rounds = init ++ [last] ∧ last.merges = [] ∧
      ∀ r ∈ init, r.merges ≠ []) ∧
    ((generate n S).primes.map fun a => (a.mask, a.base)).Nodup ∧
    (∀ c : Cube, (∃ a ∈ (generate n S).primes, a.mask = c.mask ∧ a.base = c.base) ↔
      (∀ x ∈ c, x ∈ S) ∧ ∀ d : Cube, (∀ x ∈ d, x ∈ S) → (∀ x ∈ c, x ∈ d) → ∀ x ∈ d, x ∈ c) ∧
    ∀ a ∈ (generate n S).primes, a.base &&& a.mask = 0 ∧ a.mask.toNat < 2 ^ n.size ∧
      a.minterms.Pairwise (· < ·) ∧ ∀ x, x ∈ a.minterms ↔ x &&& ~~~a.mask = a.base := by
  have admitted : ∀ x ∈ S, n.admits x = true := fun x member =>
    Arity.admits_iff_lt.mpr (inRange x member)
  have listed {a : Implicant} := mem_primes ascending admitted (a := a)
  refine ⟨?_, ?_, fun c => ?_, fun a member => ?_⟩
  · obtain ⟨init, last, rounds, quiet, busy, -⟩ := generate_rounds ascending admitted
    exact ⟨init, last, rounds, quiet, busy⟩
  · refine List.Nodup.map_on (fun a left b right same => ?_) (primes_nodup ascending admitted)
    obtain ⟨c, reprLeft, -⟩ := listed.mp left
    obtain ⟨d, reprRight, -⟩ := listed.mp right
    obtain ⟨masks, bases⟩ := Prod.mk.inj same
    have cubes : c = d := by
      refine Cube.ext ?_ ?_
      · rw [← reprLeft.mask, masks, reprRight.mask]
      · rw [← reprLeft.base, bases, reprRight.base]
    exact reprLeft.unique (cubes ▸ reprRight)
  · show _ ↔ c.IsPrime S
    constructor
    · rintro ⟨a, member, mask, base⟩
      obtain ⟨d, repr, prime⟩ := listed.mp member
      have cubes : d = c := Cube.ext (repr.mask.symm.trans mask) (repr.base.symm.trans base)
      exact cubes ▸ prime
    · intro prime
      obtain ⟨a, member, repr⟩ := exists_mem_primes ascending admitted prime
      exact ⟨a, member, repr.mask, repr.base⟩
  · obtain ⟨c, repr, prime⟩ := listed.mp member
    have isOver := prime.within.isOver admitted
    refine ⟨?_, ?_, repr.ascending, fun x => ?_⟩
    · rw [repr.base, repr.mask, c.clear]
    · rw [repr.mask]
      exact Arity.admits_iff_lt.mp isOver.mask
    · rw [repr.mem, Cube.mem_def, repr.mask, repr.base]

/-- Six minterms of three variables in a ring: the edge of `000` and `001` is generated, and is
prime; its minterms are these two words. -/
theorem primes_exact_ring :
    [0, 1, 2, 5, 6, 7].Pairwise (fun x y : Word => x < y) ∧
      (∀ x ∈ ([0, 1, 2, 5, 6, 7] : List Word), x.toNat < 2 ^ 3) ∧
      ∃ a ∈ (generate ⟨3, by decide⟩ [0, 1, 2, 5, 6, 7]).primes, a.mask = 1 ∧ a.base = 0 ∧
        Cube.IsPrime [0, 1, 2, 5, 6, 7] ⟨1, 0, rfl⟩ ∧
        ∀ x, x ∈ a.minterms ↔ x &&& ~~~1 = 0 := by
  have ascending : [0, 1, 2, 5, 6, 7].Pairwise (fun x y : Word => x < y) := by decide
  have inRange : ∀ x ∈ ([0, 1, 2, 5, 6, 7] : List Word), x.toNat < 2 ^ 3 := by simp
  obtain ⟨-, -, exact, each⟩ :=
    primes_exact ⟨3, by decide⟩ [0, 1, 2, 5, 6, 7] ascending inRange
  obtain ⟨a, member, mask, base⟩ :
      ∃ a ∈ (generate ⟨3, by decide⟩ [0, 1, 2, 5, 6, 7]).primes, a.mask = 1 ∧ a.base = 0 := by
    decide
  obtain ⟨-, -, -, minterms⟩ := each a member
  rw [mask, base] at minterms
  refine ⟨ascending, inRange, a, member, mask, base, ?_, minterms⟩
  exact (exact ⟨1, 0, rfl⟩).mp ⟨a, member, mask, base⟩

end TwoLevel
