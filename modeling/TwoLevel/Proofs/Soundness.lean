/-
# TwoLevel.Proofs.Soundness — the result is the function that was asked for

A result says three times what the function is: by its cover, by its value on an
assignment, and by its expression. Of a cover of a function that is not constant all three
come down to the minterms its implicants cover (`ListsPrimes.coverEval_iff`,
`ListsPrimes.eval_products_iff`); the printed text is read back as the products of the cover,
so that the grammar plays no part any more. The constant functions are told by counting:
there are as many minterms as assignments exactly if all are minterms
(`length_eq_iff_forall`).
-/
import Mathlib.Data.Finset.Range
import TwoLevel.Proofs.Course
import TwoLevel.Proofs.RoundTrip

namespace TwoLevel

set_option autoImplicit false

/-! ## The value of a cover -/

section Cover

variable {n : Arity} {x : Word}

namespace ListsPrimes

variable {minterms : List Word} {primes : List Implicant} {chosen : IndexSet}

theorem coverEval_iff (known : ListsPrimes minterms primes)
    (complete : (select primes minterms).Completes chosen) :
    coverEval ((select primes minterms).cover chosen) x = true ↔ x ∈ minterms := by
  rw [coverEval, List.any_eq_true, known.mem_iff_exists_cover complete]
  refine exists_congr fun a => and_congr_right fun member => ?_
  obtain ⟨c, repr, -⟩ := known.prime a (known.cover_subset member)
  rw [repr.eval_iff, repr.covers_iff]

theorem eval_products_iff (known : ListsPrimes minterms primes)
    (inRange : ∀ m ∈ minterms, n.admits m = true)
    (complete : (select primes minterms).Completes chosen) (admitted : n.admits x = true) :
    Expression.eval ⟨((select primes minterms).cover chosen).map (·.product n)⟩ x = true ↔
      x ∈ minterms := by
  rw [Expression.eval, List.any_map, List.any_eq_true, known.mem_iff_exists_cover complete]
  refine exists_congr fun a => and_congr_right fun member => ?_
  obtain ⟨c, repr, prime⟩ := known.prime a (known.cover_subset member)
  rw [repr.covers_iff]
  exact repr.eval_product_iff (prime.within.isOver inRange) admitted

theorem cover_ne_nil (known : ListsPrimes minterms primes)
    (complete : (select primes minterms).Completes chosen) (some : minterms ≠ []) :
    (select primes minterms).cover chosen ≠ [] := by
  obtain ⟨m, rest, rfl⟩ := List.exists_cons_of_ne_nil some
  obtain ⟨a, member, -⟩ := (known.mem_iff_exists_cover complete).mp List.mem_cons_self
  exact List.ne_nil_of_mem member

end ListsPrimes

end Cover

/-! ## Constant functions -/

section Constant

variable {ascending : List Word} {n : Arity}

theorem eq_nil_iff_forall (inRange : ∀ m ∈ ascending, n.admits m = true) :
    ascending = [] ↔ ∀ x, n.admits x = true → x ∉ ascending := by
  rw [List.eq_nil_iff_forall_not_mem]
  constructor
  · intro absent x _
    exact absent x
  · intro absent x member
    exact absent x (inRange x member) member

/-- All assignments are minterms exactly if there are as many minterms as assignments. -/
theorem length_eq_iff_forall (ordered : ascending.Pairwise (· < ·))
    (inRange : ∀ m ∈ ascending, n.admits m = true) :
    ascending.length = 1 <<< n.size ↔ ∀ x, n.admits x = true → x ∈ ascending := by
  rw [Nat.one_shiftLeft]
  have injective : Function.Injective UInt64.toNat := fun _ _ => UInt64.toNat_inj.mp
  have once : (ascending.map UInt64.toNat).Nodup :=
    List.Nodup.map injective (ordered.imp UInt64.ne_of_lt)
  have inside : (ascending.map UInt64.toNat).toFinset ⊆ Finset.range (2 ^ n.size) := by
    intro k member
    obtain ⟨m, listed, rfl⟩ := List.mem_map.mp (List.mem_toFinset.mp member)
    exact Finset.mem_range.mpr (Arity.admits_iff_lt.mp (inRange m listed))
  have size : (ascending.map UInt64.toNat).toFinset.card = ascending.length := by
    rw [List.toFinset_card_of_nodup once, List.length_map]
  constructor
  · intro full x admitted
    have whole := Finset.eq_of_subset_of_card_le inside (by rw [Finset.card_range, size, full])
    have member := Finset.mem_range.mpr (Arity.admits_iff_lt.mp admitted)
    rwa [← whole, List.mem_toFinset, List.mem_map_of_injective injective] at member
  · intro all
    have whole : (ascending.map UInt64.toNat).toFinset = Finset.range (2 ^ n.size) := by
      refine inside.antisymm fun k member => ?_
      have below := Finset.mem_range.mp member
      have fits : k < 2 ^ 64 := lt_of_lt_of_le below (Nat.pow_le_pow_right (by decide) n.size_le)
      have value : (UInt64.ofNat k).toNat = k := UInt64.toNat_ofNat_of_lt' fits
      refine List.mem_toFinset.mpr (List.mem_map.mpr ⟨UInt64.ofNat k, ?_, value⟩)
      exact all _ (Arity.admits_iff_lt.mpr (value.symm ▸ below))
    rw [← size, whole, Finset.card_range]

/-- The function of `n` variables that is true on `minterms` is neither false nor true
everywhere. -/
def NotConstant (n : Arity) (minterms : List Word) : Prop :=
  (∃ x : Word, x ∈ minterms) ∧ ∃ x : Word, x.toNat < 2 ^ n.size ∧ x ∉ minterms

theorem notConstant_iff {minterms : List Word} (inRange : ∀ m ∈ minterms, n.admits m = true) :
    NotConstant n minterms ↔ Ascending.ofList minterms ≠ [] ∧
      (Ascending.ofList minterms).length ≠ 1 <<< n.size := by
  have admitted := admits_ofList inRange
  have ordered := Ascending.pairwise_ofList minterms
  rw [ne_eq, ne_eq, eq_nil_iff_forall admitted, length_eq_iff_forall ordered admitted, NotConstant]
  simp only [Ascending.mem_ofList, ← Arity.admits_iff_lt]
  push Not
  refine and_congr_left fun _ => exists_congr fun x => ?_
  exact (and_iff_right_of_imp (inRange x)).symm

end Constant

/-! ## Every result -/

/-- The value and the expression of a result say whether an assignment is a minterm. -/
structure Minimization.Denotes (r : Minimization) (n : Arity) (minterms : List Word) : Prop where
  value : ∀ x, n.admits x = true → (r.eval x = true ↔ x ∈ minterms)
  expression : ∃ e, Expression.parse r.expression n.size = .ok e ∧
    ∀ x, n.admits x = true → (e.eval x = true ↔ x ∈ minterms)

section Denotes

variable {n : Arity} {minterms : List Word}

/-- The texts of the constants are read as the empty sum and the empty product. -/
theorem denotes_constant {value : Bool}
    (constant : ∀ x, n.admits x = true → (value = true ↔ x ∈ minterms)) :
    (Minimization.constant value).Denotes n minterms := by
  cases value with
  | false => exact ⟨constant, ⟨[]⟩, rfl, constant⟩
  | true =>
      refine ⟨constant, ⟨[.one]⟩, rfl, fun x admitted => ?_⟩
      rw [← constant x admitted]
      simp [Expression.eval, Product.eval, Product.one]

theorem isConstant_ofCover {cover : List Implicant} (some : cover ≠ []) :
    (Minimization.ofCover n cover).isConstant = false := by
  simpa [Minimization.isConstant, Minimization.ofCover] using some

theorem ListsPrimes.denotes_cover {primes : List Implicant} {chosen : IndexSet}
    (known : ListsPrimes minterms primes) (inRange : ∀ m ∈ minterms, n.admits m = true)
    (complete : (select primes minterms).Completes chosen) (some : minterms ≠ []) :
    (Minimization.ofCover n ((select primes minterms).cover chosen)).Denotes n minterms := by
  have nonempty := known.cover_ne_nil complete some
  refine ⟨fun x _ => ?_, _, parse_formatCover nonempty, fun x admitted => ?_⟩
  · rw [Minimization.eval, isConstant_ofCover nonempty, if_neg Bool.false_ne_true]
    exact known.coverEval_iff complete
  · exact known.eval_products_iff inRange complete admitted

end Denotes

namespace Course

variable {config : Config} {n : Arity} {ascending : List Word} {r : Minimization} {t : Trace}

theorem eq_constant_false (course : Course config n ascending r t) (none : ascending = []) :
    r = .constant false := by
  cases course with
  | never _ => rfl
  | always some _ => exact absurd none some
  | proper some _ _ _ => exact absurd none some

theorem eq_constant_true (course : Course config n ascending r t)
    (all : ascending.length = 1 <<< n.size) : r = .constant true := by
  cases course with
  | never none =>
      rw [none, Nat.one_shiftLeft] at all
      exact absurd all.symm (Nat.two_pow_pos n.size).ne'
  | always _ _ => rfl
  | proper _ notAll _ _ => exact absurd all notAll

/-- A result that is not constant is the cover of a complete choice. -/
theorem eq_ofCover (ordered : ascending.Pairwise (· < ·))
    (inRange : ∀ m ∈ ascending, n.admits m = true) (course : Course config n ascending r t)
    (some : ascending ≠ []) (notAll : ascending.length ≠ 1 <<< n.size) :
    ∃ chosen : IndexSet, (select (generate n ascending).primes ascending).Completes chosen ∧
      r = .ofCover n ((select (generate n ascending).primes ascending).cover chosen) := by
  have known := generate_listsPrimes ordered inRange
  cases course with
  | never none => exact absurd none some
  | always _ all => exact absurd all notAll
  | proper _ _ covered _ =>
      exact ⟨_, covered.completes known.coverable, by rw [known.distinct_cover]⟩

theorem denotes (ordered : ascending.Pairwise (· < ·))
    (inRange : ∀ m ∈ ascending, n.admits m = true) (course : Course config n ascending r t) :
    r.Denotes n ascending := by
  by_cases none : ascending = []
  · rw [course.eq_constant_false none]
    exact denotes_constant fun x _ => by simp [none]
  · by_cases all : ascending.length = 1 <<< n.size
    · rw [course.eq_constant_true all]
      have every := (length_eq_iff_forall ordered inRange).mp all
      exact denotes_constant fun x admitted => iff_of_true rfl (every x admitted)
    · obtain ⟨chosen, complete, rfl⟩ := course.eq_ofCover ordered inRange none all
      exact (generate_listsPrimes ordered inRange).denotes_cover inRange complete none

theorem isConstant_iff (ordered : ascending.Pairwise (· < ·))
    (inRange : ∀ m ∈ ascending, n.admits m = true) (course : Course config n ascending r t) :
    r.isConstant = true ↔ ascending = [] ∨ ascending.length = 1 <<< n.size := by
  constructor
  · intro constant
    by_contra proper
    obtain ⟨some, notAll⟩ := not_or.mp proper
    obtain ⟨chosen, complete, rfl⟩ := course.eq_ofCover ordered inRange some notAll
    have nonempty := (generate_listsPrimes ordered inRange).cover_ne_nil complete some
    rw [isConstant_ofCover nonempty] at constant
    cases constant
  · rintro (none | all)
    · rw [course.eq_constant_false none]
      rfl
    · rw [course.eq_constant_true all]
      rfl

/-- A cover that is not empty groups the minterms. -/
theorem mem_iff_exists_cover (ordered : ascending.Pairwise (· < ·))
    (inRange : ∀ m ∈ ascending, n.admits m = true) (course : Course config n ascending r t)
    (proper : r.isConstant = false) {x : Word} :
    x ∈ ascending ↔ ∃ a ∈ r.cover, x ∈ a.minterms := by
  have notConstant := (course.isConstant_iff ordered inRange).not.mp (Bool.eq_false_iff.mp proper)
  obtain ⟨some, notAll⟩ := not_or.mp notConstant
  obtain ⟨chosen, complete, rfl⟩ := course.eq_ofCover ordered inRange some notAll
  rw [(generate_listsPrimes ordered inRange).mem_iff_exists_cover complete]
  simp only [Implicant.covers, List.contains_iff_mem]
  rfl

end Course

/-- **Soundness.** Whatever the configuration, an answer is right: its value on an
assignment says whether that is one of the minterms, and so does the expression, which
can always be read. The answer is constant exactly if no assignment or every assignment
is a minterm, and then reads `0` or `1`; otherwise the cover groups the minterms and
nothing else. -/
theorem minimizeTraced_sound (config : Config) (minterms : List Word) (n : Arity)
    (r : Minimization) (t : Trace) (answered : minimizeTraced config minterms n.size = .ok (r, t)) :
    (∃ e, Expression.parse r.expression n.size = .ok e ∧
      ∀ x : Word, x.toNat < 2 ^ n.size →
        (r.eval x = true ↔ x ∈ minterms) ∧ (e.eval x = true ↔ x ∈ minterms)) ∧
    (r.isConstant = true ↔ (∀ x : Word, x.toNat < 2 ^ n.size → x ∉ minterms) ∨
      ∀ x : Word, x.toNat < 2 ^ n.size → x ∈ minterms) ∧
    ((∀ x : Word, x.toNat < 2 ^ n.size → x ∉ minterms) → r.expression = "0") ∧
    ((∀ x : Word, x.toNat < 2 ^ n.size → x ∈ minterms) → r.expression = "1") ∧
    (r.isConstant = false → ∀ x : Word, x.toNat < 2 ^ n.size →
      (x ∈ minterms ↔ ∃ a ∈ r.cover, x ∈ a.minterms)) := by
  obtain ⟨-, inRange, course⟩ := minimizeTraced_eq_ok_iff.mp answered
  have ordered := Ascending.pairwise_ofList minterms
  have admitted : ∀ m ∈ Ascending.ofList minterms, n.admits m = true := fun m member =>
    inRange m (Ascending.mem_ofList.mp member)
  have denotes := course.denotes ordered admitted
  have isConstant := course.isConstant_iff ordered admitted
  have never := eq_nil_iff_forall admitted
  have always := length_eq_iff_forall ordered admitted
  simp only [Ascending.mem_ofList, Arity.admits_iff_lt] at never always
  obtain ⟨value, e, parsed, expression⟩ := denotes
  simp only [Ascending.mem_ofList, Arity.admits_iff_lt] at value expression
  refine ⟨⟨e, parsed, fun x below => ⟨value x below, expression x below⟩⟩, ?_, fun none => ?_,
    fun all => ?_, fun proper x _ => ?_⟩
  · rw [isConstant, never, always]
  · rw [course.eq_constant_false (never.mpr none)]
    rfl
  · rw [course.eq_constant_true (always.mpr all)]
    rfl
  · exact Ascending.mem_ofList.symm.trans (course.mem_iff_exists_cover ordered admitted proper)

/-- The ring of six minterms, in some order and with a repetition, under a budget that only
a greedy covering meets: three is no minterm, and five is one the cover groups. -/
theorem minimizeTraced_sound_ring :
    ∃ r t, minimizeTraced ⟨some 1, .greedy⟩ [6, 0, 1, 2, 7, 5, 1] 3 = .ok (r, t) ∧
      t.greedy = true ∧ r.eval 3 ≠ true ∧ ∃ a ∈ r.cover, 5 ∈ a.minterms := by
  obtain ⟨r, t, answered, taken⟩ :
      ∃ r t, minimizeTraced ⟨some 1, .greedy⟩ [6, 0, 1, 2, 7, 5, 1] 3 = .ok (r, t) ∧
        t.greedy = true := ⟨_, _, rfl, rfl⟩
  obtain ⟨⟨e, parsed, value⟩, constant, -, -, grouped⟩ :=
    minimizeTraced_sound _ _ ⟨3, by decide⟩ r t answered
  have proper : r.isConstant = false := by
    refine Bool.eq_false_iff.mpr fun known => ?_
    rcases constant.mp known with none | all
    · exact none 0 (by decide) (by decide)
    · exact absurd (all 3 (by decide)) (by decide)
  refine ⟨r, t, answered, taken, fun holds => ?_, (grouped proper 5 (by decide)).mp (by decide)⟩
  exact absurd ((value 3 (by decide)).1.mp holds) (by decide)

end TwoLevel
