/-
# TwoLevel.Prime.Round — one round of merging

Implicants are kept in one bucket for each number of positive literals. A round
merges every pair from two adjacent buckets that combines, and both parts of a
merge are used up. What was merged and what was not used goes back into buckets
(`pooled`), and each bucket keeps the first occurrence of every implicant
(`buckets`). Two implicants that combine differ in one literal, so no pair outside
adjacent buckets is missed.

Partners are looked up by mask: `between_eq` says that no pair of the two buckets
is lost by that, and `meets_ofList` the same of what is used up.
-/
import TwoLevel.Distinct

namespace TwoLevel

set_option autoImplicit false

/-- Two implicants and what they combine into. -/
structure Merge where
  left : Implicant
  right : Implicant
  result : Implicant
  deriving DecidableEq, Repr

namespace Merge

/-- The pairs of one implicant below and one above that combine. -/
def between (n : Arity) (lower upper : List Implicant) : List Merge :=
  let groups := ByMask.ofList upper
  lower.flatMap fun a =>
    (groups.having a.mask).filterMap fun b => (a.combine b n).map (Merge.mk a b)

/-- Every pair is tried that could combine. -/
theorem between_eq (n : Arity) (lower upper : List Implicant) :
    between n lower upper =
      lower.flatMap fun a => upper.filterMap fun b => (a.combine b n).map (Merge.mk a b) := by
  show lower.flatMap (fun a => _) = _
  congr 1
  funext a
  rw [ByMask.having_ofList, List.filterMap_filter]
  congr 1
  funext b
  by_cases same : b.mask = a.mask
  · simp [same]
  · simp [same, Implicant.combine_eq_none_of_mask_ne (Ne.symm same)]

/-- The merges of all pairs of adjacent buckets. -/
def ofBuckets (n : Arity) : List (List Implicant) → List Merge
  | lower :: upper :: rest => between n lower upper ++ ofBuckets n (upper :: rest)
  | _ => []

end Merge

/-- Buckets of implicants by their number of positive literals. -/
def bucketsByOnes (n : Arity) (implicants : List Implicant) : List (List Implicant) :=
  let counted := implicants.map fun a => (a.ones n, a)
  (List.range (n.size + 1)).map fun k => (counted.filter fun entry => entry.1 == k).map (·.2)

/-- A bucket holds the implicants with its number of positive literals, in order. -/
theorem bucketsByOnes_eq (n : Arity) (implicants : List Implicant) :
    bucketsByOnes n implicants =
      (List.range (n.size + 1)).map fun k => implicants.filter fun a => a.ones n == k := by
  show (List.range (n.size + 1)).map (fun k => _) = _
  congr 1
  funext k
  rw [List.filter_map, List.map_map]
  exact List.map_id _

/-- What a round did: its merges, and its buckets before and after repeated
implicants were dropped. -/
structure Round where
  merges : List Merge
  pooled : List (List Implicant)
  buckets : List (List Implicant)
  deriving DecidableEq, Repr

namespace Round

/-- Whether `a` combines with an implicant of a collection. -/
def meets (n : Arity) (groups : ByMask) (a : Implicant) : Bool :=
  (groups.having a.mask).any fun b => (a.differingBit b n).isSome

/-- Every partner is tried that `a` could have. -/
theorem meets_ofList (n : Arity) (implicants : List Implicant) (a : Implicant) :
    meets n (ByMask.ofList implicants) a =
      implicants.any fun b => (a.differingBit b n).isSome := by
  rw [meets, ByMask.having_ofList, List.any_filter]
  congr 1
  funext b
  by_cases same : b.mask = a.mask
  · simp [same]
  · simp [Implicant.differingBit, Ne.symm same]

/-- The implicants that are no part of a merge: they combine with nothing in the
buckets next to their own. `below` is the bucket before the first one. -/
def unusedFrom (n : Arity) (below : ByMask) : List (List Implicant) → List Implicant
  | [] => []
  | bucket :: rest =>
      let above := ByMask.ofList (rest.headD [])
      (bucket.filter fun a => !(meets n below a || meets n above a)) ++
        unusedFrom n (ByMask.ofList bucket) rest

/-- The round that starts from `buckets`. -/
def ofBuckets (n : Arity) (buckets : List (List Implicant)) : Round :=
  let merges := Merge.ofBuckets n buckets
  let pooled := bucketsByOnes n (merges.map (·.result) ++ unusedFrom n [] buckets)
  ⟨merges, pooled, pooled.map distinct⟩

/-- The implicants present after the round. -/
def implicants (r : Round) : List Implicant := r.buckets.flatten

end Round

end TwoLevel
