/-
# TwoLevel.Proofs.Patterns — a pattern is a name of its implicant

The pattern of an implicant and the text of its term are written by two traversals of the
positions, and its value and its counts of literals are computed from its words. All of them
depend on one character for each position (`Implicant.symbol`):

* the pattern lists the characters from the highest position down (`patternBelow_eq`);
* the text of the term, taken apart again, has a literal for every position that is not
  eliminated (`mentions_term_iff`);
* an assignment written in binary has a character for every position as well
  (`Word.binary_eq`), and agreeing with the pattern is being in the cube
  (`Represents.eval_iff_agrees`);
* the positions of literals are counted (`literals_eq_countP`, `ones_eq_count`).

Under the mask and above the variables a base has no bits, so that nothing of the implicant is
missing from these characters (`Represents.eq_of_symbol_eq`).
-/
import Mathlib.Data.Nat.Digits.Lemmas
import TwoLevel.Proofs.RoundTrip

namespace TwoLevel

set_option autoImplicit false

/-! ## Positions from the highest one down -/

theorem getElem?_reverse_range {α : Type} (f : Nat → α) {k p : Nat} (below : p < k) :
    ((List.range k).reverse.map f)[p]? = some (f (k - 1 - p)) := by
  have size : (List.range k).length = k := List.length_range
  rw [List.getElem?_map, List.getElem?_reverse (by omega), size,
    List.getElem?_range (by omega), Option.map_some]

namespace Word

/-- An assignment as a row of binary digits, the most significant one first. -/
def binary (x : Word) (count : Nat) : List Char :=
  ((Nat.digits 2 x.toNat).map Nat.digitChar).reverse.leftpad count '0'

/-- The digits of a number and zeros behind them are its bits, from the lowest one up. -/
theorem digits_padded {k m : Nat} (small : m < 2 ^ k) :
    (Nat.digits 2 m).map Nat.digitChar ++ List.replicate (k - (Nat.digits 2 m).length) '0' =
      (List.range k).map fun i => if m.testBit i then '1' else '0' := by
  induction k generalizing m with
  | zero =>
      obtain rfl : m = 0 := by omega
      rfl
  | succ k ih =>
      have half : m / 2 < 2 ^ k := by
        rw [Nat.pow_succ] at small
        omega
      have later : (List.range k).map ((fun i => if m.testBit i then '1' else '0') ∘ Nat.succ) =
          (List.range k).map fun i => if (m / 2).testBit i then '1' else '0' := by
        simp only [Function.comp_def, Nat.testBit_succ]
      have lowest : (if m.testBit 0 then '1' else '0') = Nat.digitChar (m % 2) := by
        rw [Nat.testBit_zero]
        rcases Nat.mod_two_eq_zero_or_one m with even | odd
        · rw [even]; rfl
        · rw [odd]; rfl
      rw [List.range_succ_eq_map, List.map_cons, List.map_map, lowest, later, ← ih half]
      rcases Nat.eq_zero_or_pos m with rfl | positive
      · rw [Nat.zero_div, Nat.digits_zero]
        rfl
      · rw [Nat.digits_def' (by decide) positive, List.map_cons, List.cons_append,
          List.length_cons, Nat.add_sub_add_right]

theorem binary_eq {x : Word} {k : Nat} (small : x.toNat < 2 ^ k) :
    x.binary k = (List.range k).reverse.map fun i => if x.bit i then '1' else '0' := by
  have padded := congrArg List.reverse (digits_padded small)
  rw [List.reverse_append, List.reverse_replicate] at padded
  rw [binary, List.leftpad, List.length_reverse, List.length_map, List.map_reverse]
  exact padded

/-- Among the variables only their positions count. -/
theorem popCount_eq_countP_size {n : Arity} {w : Word} (admitted : n.admits w = true) :
    w.popCount = (List.range n.size).countP w.bit := by
  have split : 64 = n.size + (64 - n.size) := by have := n.size_le; omega
  have beyond : ((List.range (64 - n.size)).map (n.size + ·)).countP w.bit = 0 := by
    rw [List.countP_eq_zero]
    intro i member
    obtain ⟨j, -, rfl⟩ := List.mem_map.mp member
    simp [Arity.bit_eq_false_of_admits admitted (Nat.le_add_right n.size j)]
  rw [popCount_eq_countP, split, List.range_add, List.countP_append, beyond, Nat.add_zero]

end Word

/-! ## Literals in a text -/

/-- One of the literals that the text falls into is `l`. -/
def Mentions (n : Arity) (text : List Char) (l : Literal) : Prop :=
  ∃ tokens, Token.Lexed text tokens ∧ ∃ t ∈ tokens, t.Denotes n l

theorem mentions_iff {n : Arity} {text : List Char} {l : Literal} :
    Mentions n text l ↔ ∃ t ∈ Token.scan text, t.Denotes n l := by
  simp only [Mentions, Token.lexed_iff, exists_eq_left']

/-- The name of a variable, with an apostrophe or not, stands for one literal. -/
theorem Token.denotes_ofBit {n : Arity} {k : Nat} (below : k < n.size) (complemented : Bool)
    {l : Literal} :
    Token.Denotes n ⟨(Variable.ofBit k n.size).name, complemented⟩ l ↔
      l = ⟨n.size - 1 - k, !complemented⟩ := by
  have position := Variable.position_ofBit (k := k) n.size_le
  have used : (Variable.ofBit k n.size).position.toNat < n.size := by omega
  rw [Token.denotes_iff, Token.resolve?_name used complemented]
  simp [position]

namespace Implicant

variable {a b : Implicant} {c d : Cube} {n : Arity} {k : Nat}

/-- What a pattern shows at a position. -/
def symbol (a : Implicant) (i : Nat) : Char :=
  if a.mask.bit i then '-' else if a.base.bit i then '1' else '0'

theorem symbol_eq_dash_iff {i : Nat} : a.symbol i = '-' ↔ a.mask.bit i = true := by
  unfold symbol
  cases a.mask.bit i <;> cases a.base.bit i <;> simp

theorem symbol_eq_digit_iff {i : Nat} (positive : Bool) :
    a.symbol i = (if positive then '1' else '0') ↔
      a.mask.bit i = false ∧ a.base.bit i = positive := by
  unfold symbol
  cases positive <;> cases a.mask.bit i <;> cases a.base.bit i <;> simp

theorem patternBelow_eq (a : Implicant) (k : Nat) :
    a.patternBelow k = (List.range k).reverse.map a.symbol := by
  induction k with
  | zero => rfl
  | succ k ih =>
      rw [patternBelow, ih, List.range_succ, List.reverse_append, List.map_append]
      rfl

theorem toList_pattern (a : Implicant) (k : Nat) :
    (a.pattern k).toList = (List.range k).reverse.map a.symbol := by
  rw [pattern, String.toList_ofList, patternBelow_eq]

theorem mem_tokensBelow {count : Nat} {t : Token} :
    t ∈ a.tokensBelow count k ↔
      ∃ i < k, a.mask.bit i = false ∧ t = ⟨(Variable.ofBit i count).name, !a.base.bit i⟩ := by
  induction k with
  | zero => simp [tokensBelow]
  | succ k ih =>
      rw [tokensBelow]
      split
      · next eliminated =>
        rw [ih]
        constructor
        · rintro ⟨i, below, held, shape⟩
          exact ⟨i, Nat.lt_succ_of_lt below, held, shape⟩
        · rintro ⟨i, below, held, shape⟩
          refine ⟨i, ?_, held, shape⟩
          have other : i ≠ k := by rintro rfl; simp [eliminated] at held
          omega
      · next held =>
        rw [List.mem_cons, ih]
        constructor
        · rintro (rfl | ⟨i, below, held, shape⟩)
          · exact ⟨k, Nat.lt_succ_self k, Bool.eq_false_of_not_eq_true held, rfl⟩
          · exact ⟨i, Nat.lt_succ_of_lt below, held, shape⟩
        · rintro ⟨i, below, held, shape⟩
          rcases Nat.lt_succ_iff_lt_or_eq.mp below with lower | rfl
          · exact .inr ⟨i, lower, held, shape⟩
          · exact .inl shape

/-- The literals in the text of a term are those it is written from, also where there are none. -/
theorem mentions_term_iff_tokens (a : Implicant) (n : Arity) (l : Literal) :
    Mentions n (a.term n.size) l ↔ ∃ t ∈ a.tokensBelow n.size n.size, t.Denotes n l := by
  have scanned := scan_literalsBelow a n.size n.size
  rw [mentions_iff, term]
  split
  · next none =>
    rw [none] at scanned
    rw [← scanned]
    refine iff_of_false ?_ (by rintro ⟨t, member, -⟩; cases member)
    rintro ⟨t, member, denotes⟩
    obtain rfl : t = ⟨['1'], false⟩ := List.mem_singleton.mp member
    have names : Variable.Names ['1'] l.position := denotes.names
    -- a digit is no name
    generalize l.position = position at names
    cases names with
    | letter upper => cases upper
  · rw [scanned]

/-- The text of a term has the literals that its symbols show. -/
theorem mentions_term_iff {l : Literal} :
    Mentions n (a.term n.size) l ↔
      l.position < n.size ∧
        a.symbol (n.size - 1 - l.position) = if l.positive then '1' else '0' := by
  rw [mentions_term_iff_tokens, symbol_eq_digit_iff]
  constructor
  · rintro ⟨t, member, denotes⟩
    obtain ⟨i, below, held, rfl⟩ := mem_tokensBelow.mp member
    obtain rfl := (Token.denotes_ofBit below _).mp denotes
    have back : n.size - 1 - (n.size - 1 - i) = i := by omega
    dsimp only
    rw [back, Bool.not_not]
    exact ⟨by omega, held, rfl⟩
  · rintro ⟨below, held, sign⟩
    have inside : n.size - 1 - l.position < n.size := by omega
    refine ⟨_, mem_tokensBelow.mpr ⟨_, inside, held, rfl⟩, (Token.denotes_ofBit inside _).mpr ?_⟩
    have back : n.size - 1 - (n.size - 1 - l.position) = l.position := by omega
    rw [back, Bool.not_not, sign]

theorem symbol_eq_dash_iff_not_mentions {p : Nat} (below : p < n.size) :
    a.symbol (n.size - 1 - p) = '-' ↔ ∀ positive, ¬Mentions n (a.term n.size) ⟨p, positive⟩ := by
  simp only [mentions_term_iff, symbol_eq_digit_iff, symbol_eq_dash_iff, below, true_and, not_and]
  cases a.mask.bit (n.size - 1 - p) <;> simp

/-! ## Counts -/

theorem countP_toList_pattern (p : Char → Bool) (a : Implicant) (k : Nat) :
    (a.pattern k).toList.countP p = (List.range k).countP fun i => p (a.symbol i) := by
  rw [toList_pattern, List.countP_map, List.countP_reverse]
  rfl

theorem admits_care (a : Implicant) (n : Arity) : n.admits (a.care n) = true := by
  refine Arity.admits_iff_bit.mpr fun i set => ?_
  rw [bit_care, Bool.and_eq_true, decide_eq_true_iff] at set
  exact set.2

/-- The literals of a term are where its pattern has no dash. -/
theorem literals_eq_countP (a : Implicant) (n : Arity) :
    (a.pattern n.size).toList.countP (· ≠ '-') = a.literals n := by
  rw [countP_toList_pattern, literals, Word.popCount_eq_countP_size (admits_care a n)]
  refine List.countP_congr fun i member => ?_
  simp [symbol_eq_dash_iff, List.mem_range.mp member]

/-- The positive literals of a term are where its pattern has a one. -/
theorem ones_eq_count (a : Implicant) (n : Arity) :
    (a.pattern n.size).toList.count '1' = a.ones n := by
  have admitted : n.admits (a.base &&& a.care n) = true := by
    refine Arity.admits_iff_bit.mpr fun i set => ?_
    rw [Word.bit_and, bit_care, Bool.and_eq_true, Bool.and_eq_true, decide_eq_true_iff] at set
    exact set.2.2
  rw [List.count, countP_toList_pattern, ones, Word.popCount_eq_countP_size admitted]
  refine List.countP_congr fun i member => ?_
  have one : a.symbol i = '1' ↔ a.mask.bit i = false ∧ a.base.bit i = true :=
    symbol_eq_digit_iff true
  rw [beq_iff_eq, one]
  simp [List.mem_range.mp member, and_comm]

/-! ## The cube of a pattern -/

/-- A term is true on the assignments that agree with its pattern. -/
theorem Represents.eval_iff_agrees (repr : a.Represents c) (isOver : c.Over n) {x : Word}
    (small : x.toNat < 2 ^ n.size) :
    a.eval x = true ↔ ∀ (p : Nat) (s : Char), (a.pattern n.size).toList[p]? = some s → s ≠ '-' →
      (x.binary n.size)[p]? = some s := by
  rw [repr.eval_iff, Cube.mem_iff_bit, toList_pattern, Word.binary_eq small]
  simp only [← repr.mask, ← repr.base]
  constructor
  · intro member p s shown digit
    have below : p < n.size := by
      obtain ⟨bound, -⟩ := List.getElem?_eq_some_iff.mp shown
      simpa using bound
    rw [getElem?_reverse_range _ below] at shown ⊢
    obtain rfl := Option.some.inj shown
    have held := Bool.eq_false_of_not_eq_true (mt symbol_eq_dash_iff.mpr digit)
    exact congrArg some ((symbol_eq_digit_iff _).mpr ⟨held, (member _ held).symm⟩).symm
  · intro agrees i held
    rcases Nat.lt_or_ge i n.size with used | beyond
    · have below : n.size - 1 - i < n.size := by omega
      have back : n.size - 1 - (n.size - 1 - i) = i := by omega
      have digit : a.symbol i ≠ '-' := fun dash => by
        rw [symbol_eq_dash_iff.mp dash] at held
        cases held
      have shown := getElem?_reverse_range a.symbol below
      rw [back] at shown
      have same := agrees _ _ shown digit
      rw [getElem?_reverse_range _ below, back] at same
      exact ((symbol_eq_digit_iff _).mp (Option.some.inj same).symm).2.symm
    · rw [Arity.bit_eq_false_of_admits (Arity.admits_iff_lt.mpr small) beyond, repr.base,
        Arity.bit_eq_false_of_admits isOver.base beyond]

/-- Implicants of cubes over the variables with the same symbols are the same. -/
theorem Represents.eq_of_symbol_eq (first : a.Represents c) (second : b.Represents d)
    (overFirst : c.Over n) (overSecond : d.Over n)
    (same : ∀ i < n.size, a.symbol i = b.symbol i) : a = b := by
  have masks (i : Nat) : c.mask.bit i = d.mask.bit i := by
    rcases Nat.lt_or_ge i n.size with used | beyond
    · rw [Bool.eq_iff_iff, ← first.mask, ← second.mask, ← symbol_eq_dash_iff, same i used,
        symbol_eq_dash_iff]
    · rw [Arity.bit_eq_false_of_admits overFirst.mask beyond,
        Arity.bit_eq_false_of_admits overSecond.mask beyond]
  have bases (i : Nat) : c.base.bit i = d.base.bit i := by
    rcases Nat.lt_or_ge i n.size with used | beyond
    · cases free : c.mask.bit i with
      | true => rw [Cube.base_bit free, Cube.base_bit ((masks i).symm.trans free)]
      | false =>
          have shown := (symbol_eq_digit_iff (a := a) _).mpr ⟨first.mask ▸ free, rfl⟩
          rw [same i used, symbol_eq_digit_iff, first.base, second.base] at shown
          exact shown.2.symm
    · rw [Arity.bit_eq_false_of_admits overFirst.base beyond,
        Arity.bit_eq_false_of_admits overSecond.base beyond]
  have cubes : c = d := Cube.ext (Word.eq_of_bit_eq masks) (Word.eq_of_bit_eq bases)
  exact first.unique (cubes ▸ second)

/-- The symbols are all in the pattern. -/
theorem symbol_eq_of_pattern_eq (same : a.pattern n.size = b.pattern n.size) {i : Nat}
    (used : i < n.size) : a.symbol i = b.symbol i := by
  have rows := congrArg String.toList same
  rw [toList_pattern, toList_pattern, List.map_inj_left] at rows
  exact rows i (List.mem_reverse.mpr (List.mem_range.mpr used))

/-- **A pattern names its implicant.** For an implicant built over `n` the pattern has one
character for every variable: `-` if the text of the term does not mention it, `1` if it has the
variable, and `0` if it has the variable with an apostrophe. The implicant is true on the
assignments whose binary digits agree with the pattern wherever it has no dash. These places are
counted as its literals, those with a one as its positive literals, and no other implicant built
over `n` has the same pattern. -/
theorem pattern_exact (n : Arity) (a : Implicant) (built : a.BuiltOver n) :
    (a.pattern n.size).length = n.size ∧
    (∀ p < n.size,
      ((a.pattern n.size).toList[p]? = some '-' ↔
        ∀ positive, ¬Mentions n (a.term n.size) ⟨p, positive⟩) ∧
      ((a.pattern n.size).toList[p]? = some '1' ↔ Mentions n (a.term n.size) ⟨p, true⟩) ∧
      ((a.pattern n.size).toList[p]? = some '0' ↔ Mentions n (a.term n.size) ⟨p, false⟩)) ∧
    (∀ x : Word, x.toNat < 2 ^ n.size →
      (a.eval x = true ↔ ∀ (p : Nat) (s : Char), (a.pattern n.size).toList[p]? = some s →
        s ≠ '-' → (x.binary n.size)[p]? = some s)) ∧
    (a.pattern n.size).toList.countP (· ≠ '-') = a.literals n ∧
    (a.pattern n.size).toList.count '1' = a.ones n ∧
    ∀ b : Implicant, b.BuiltOver n → b.pattern n.size = a.pattern n.size → b = a := by
  obtain ⟨c, repr, isOver⟩ := built.represents
  refine ⟨?_, fun p below => ?_, fun x small => repr.eval_iff_agrees isOver small,
    literals_eq_countP a n, ones_eq_count a n, fun b other same => ?_⟩
  · rw [← String.length_toList, toList_pattern, List.length_map, List.length_reverse,
      List.length_range]
  · rw [toList_pattern, getElem?_reverse_range _ below, Option.some_inj, Option.some_inj,
      Option.some_inj, mentions_term_iff, mentions_term_iff]
    exact ⟨symbol_eq_dash_iff_not_mentions below, (and_iff_right below).symm,
      (and_iff_right below).symm⟩
  · obtain ⟨d, reprOther, overOther⟩ := other.represents
    exact reprOther.eq_of_symbol_eq repr overOther isOver fun i => symbol_eq_of_pattern_eq same

/-- Twenty-eight variables, of which the last, `x27`, is eliminated: the text mentions `A`, and
`x26` with an apostrophe, but not `x27`. -/
theorem pattern_exact_wide : ∃ a : Implicant, a.BuiltOver ⟨28, by decide⟩ ∧
    a.minterms = [0x8000000, 0x8000001] ∧
    Mentions ⟨28, by decide⟩ (a.term 28) ⟨0, true⟩ ∧
    Mentions ⟨28, by decide⟩ (a.term 28) ⟨26, false⟩ ∧
    (∀ positive, ¬Mentions ⟨28, by decide⟩ (a.term 28) ⟨27, positive⟩) ∧
    a.literals ⟨28, by decide⟩ = 27 ∧ a.ones ⟨28, by decide⟩ = 1 := by
  let n : Arity := ⟨28, by decide⟩
  have built : BuiltOver n ⟨[0x8000000, 0x8000001], 1, 0x8000000⟩ :=
    .combine (.ofMinterm (m := 0x8000000) (by decide)) (.ofMinterm (m := 0x8000001) (by decide))
      (by decide)
  obtain ⟨-, shown, -, literals, ones, -⟩ := pattern_exact n _ built
  refine ⟨_, built, rfl, (shown 0 (by decide)).2.1.mp (by decide),
    (shown 26 (by decide)).2.2.mp (by decide), (shown 27 (by decide)).1.mp (by decide), ?_, ?_⟩
  · exact literals.symm.trans (by decide)
  · exact ones.symm.trans (by decide)

end Implicant

end TwoLevel
