/-
# TwoLevel.Proofs.RoundTrip — what is printed is read back

`Implicant.product` is the value that the text of an implicant has. The text is the
literals of the positions in use, one after the other; each is read as one token, because
what follows it starts neither with an apostrophe nor with a digit (`scanFrom_literal`), and
conjoining the tokens sets the bits of the product from the highest one down
(`conjoin_tokensBelow`). The texts of several implicants have no blank and no `+` in them, so
cutting the sum at every `+` and trimming gives them back (`parseAll_sumText`).
`parse_formatCover` is the whole way, for every cover that is not empty: the empty cover
has the empty text, which is no expression.

What is read looks at the variables of the function only, where an implicant looks at all
bits; on an assignment without others both have the same value (`eval_products_eq`).
-/
import Mathlib.Data.List.TakeWhile
import TwoLevel.Expression.Printer
import TwoLevel.Proofs.Representation
import TwoLevel.Proofs.Tokens

namespace TwoLevel

set_option autoImplicit false

/-! ## Tokens -/

namespace Token

/-- A text that goes on no token: its first character, if there is one, is neither an
apostrophe nor a digit. -/
def Starts (rest : List Char) : Prop := ∀ c ∈ rest.head?, c ≠ '\'' ∧ c.isDigit = false

theorem isName_name (v : Variable) : IsName v.name := by
  rcases v.name_shape with ⟨c, shape, -⟩ | ⟨digits, shape, -, all⟩
  · rw [shape]
    exact .single c
  · rw [shape]
    exact .numbered all

/-- A literal is read as one token. -/
theorem scanFrom_literal (v : Variable) (complemented : Bool) {rest : List Char}
    (starts : Starts rest) :
    scanFrom none (text ⟨v.name, complemented⟩ ++ rest) =
      ⟨v.name, complemented⟩ :: scanFrom none rest := by
  have ends : Ends ⟨v.name, complemented⟩ rest := by
    intro _ c first
    obtain ⟨plain, stop⟩ := starts c first
    exact ⟨plain, fun _ => stop⟩
  exact scanFrom_token (isName_name v) ends

theorem resolve?_name {v : Variable} {count : Nat} (below : v.position.toNat < count)
    (complemented : Bool) : resolve? ⟨v.name, complemented⟩ count = some v := by
  rw [resolve?, Variable.ofName?_name]
  exact if_pos below

end Token

namespace Variable

variable {k count : Nat}

theorem position_ofBit (fits : count ≤ 64) : (ofBit k count).position.toNat = count - 1 - k := by
  rw [ofBit, UInt32.toNat_ofNat']
  omega

/-- The variable that owns a position is the one whose bit it is. -/
theorem bit_ofBit (below : k < count) (fits : count ≤ 64) :
    ((ofBit k count).bit count).toNat = k := by
  rw [bit, UInt32.toNat_ofNat', position_ofBit fits]
  omega

end Variable

/-! ## Terms -/

namespace Product

variable {p : Product} {k : Nat} {positive : Bool}

theorem care_withLiteral (width : k < 64) (i : Nat) :
    (p.withLiteral (Word.single k) positive).care.bit i = (p.care.bit i || decide (k = i)) := by
  rw [withLiteral, Word.bit_or, Word.bit_single width]

theorem value_withLiteral (width : k < 64) (i : Nat) :
    (p.withLiteral (Word.single k) positive).value.bit i =
      (p.value.bit i || (positive && decide (k = i))) := by
  cases positive with
  | true => rw [withLiteral, if_pos rfl, Word.bit_or, Word.bit_single width, Bool.true_and]
  | false => rw [withLiteral, if_neg Bool.false_ne_true, Bool.false_and, Bool.or_false]

theorem eval_iff_bit {x : Word} :
    p.eval x = true ↔ ∀ i, p.care.bit i = true → x.bit i = p.value.bit i := by
  rw [eval, beq_iff_eq, Word.eq_iff_bit]
  refine forall_congr' fun i => ?_
  rw [Word.bit_and, Word.bit_xor, Word.bit_zero]
  cases p.care.bit i <;> cases x.bit i <;> cases p.value.bit i <;> simp

/-- A literal on a free position is added to the product. -/
theorem conjoin_cons (term : List Char) {count : Nat} {t : Token} {v : Variable}
    {rest : List Token} (named : t.resolve? count = some v) (owned : (v.bit count).toNat = k)
    (width : k < 64) (free : p.care.bit k = false) :
    conjoin term count p (t :: rest) =
      conjoin term count (p.withLiteral (Word.single k) !t.complemented) rest := by
  have unused := (Word.and_single_eq_zero_iff width).mpr free
  simp [conjoin, named, owned, unused]

end Product

namespace Implicant

/-- The product that the text of an implicant stands for. -/
def product (a : Implicant) (n : Arity) : Product := ⟨a.care n, a.base &&& a.care n⟩

/-- The literals on positions below `k`, as they are read. -/
def tokensBelow (a : Implicant) (count : Nat) : Nat → List Token
  | 0 => []
  | k + 1 =>
      if a.mask.bit k then a.tokensBelow count k
      else ⟨(Variable.ofBit k count).name, !a.base.bit k⟩ :: a.tokensBelow count k

section Terms

variable {a : Implicant} {n : Arity} {count k : Nat}

/-- Literals start with a capital letter or an `x`. -/
theorem starts_literalsBelow (a : Implicant) (count k : Nat) :
    Token.Starts (a.literalsBelow count k) := by
  induction k with
  | zero => intro c first; cases first
  | succ k ih =>
      rw [literalsBelow]
      split
      · exact ih
      · intro c first
        rcases (Variable.ofBit k count).name_shape with ⟨letter, shape, upper⟩ | ⟨digits, shape, -⟩
        · rw [shape] at first
          obtain rfl : letter = c := by simpa using first
          refine ⟨?_, Text.isDigit_of_isUpper upper⟩
          rintro rfl
          cases upper
        · rw [shape] at first
          obtain rfl : 'x' = c := by simpa using first
          decide

theorem scan_literalsBelow (a : Implicant) (count k : Nat) :
    Token.scan (a.literalsBelow count k) = a.tokensBelow count k := by
  induction k with
  | zero => rfl
  | succ k ih =>
      rw [literalsBelow, tokensBelow]
      split
      · exact ih
      · have literal := Token.scanFrom_literal (Variable.ofBit k count) (!a.base.bit k)
          (starts_literalsBelow a count k)
        rw [← ih, Token.scan, Token.scan, ← literal, Token.text]
        cases a.base.bit k <;> rfl

/-- A literal sets its own position, if that is still free. -/
theorem conjoin_literal (term : List Char) {before : Product} {rest : List Token}
    (below : k < n.size) (unset : before.care.bit k = false) (positive : Bool) :
    Product.conjoin term n.size before (⟨(Variable.ofBit k n.size).name, !positive⟩ :: rest) =
      Product.conjoin term n.size (before.withLiteral (Word.single k) positive) rest := by
  have names : (Variable.ofBit k n.size).position.toNat < n.size := by
    rw [Variable.position_ofBit n.size_le]
    omega
  rw [Product.conjoin_cons term (Token.resolve?_name names !positive)
    (Variable.bit_ofBit below n.size_le) (lt_of_lt_of_le below n.size_le) unset, Bool.not_not]

/-- The literals set the positions they are on, from the highest one down. -/
theorem conjoin_tokensBelow (term : List Char) {before : Product} (within : k ≤ n.size)
    (free : ∀ i < k, before.care.bit i = false) :
    ∃ after, Product.conjoin term n.size before (a.tokensBelow n.size k) = .ok after ∧
      (∀ i, after.care.bit i = (before.care.bit i || (decide (i < k) && !a.mask.bit i))) ∧
      ∀ i, after.value.bit i =
        (before.value.bit i || (decide (i < k) && !a.mask.bit i && a.base.bit i)) := by
  induction k generalizing before with
  | zero => exact ⟨before, rfl, by simp, by simp⟩
  | succ k ih =>
      have below : k < n.size := within
      have other {i : Nat} (ne : k ≠ i) : decide (i < k + 1) = decide (i < k) := by
        rw [decide_eq_decide]
        omega
      rw [tokensBelow]
      split
      · rename_i eliminated
        obtain ⟨after, read, care, value⟩ := ih (by omega) fun i less => free i (by omega)
        refine ⟨after, read, fun i => ?_, fun i => ?_⟩ <;> by_cases same : k = i
        · subst same; simp [care, eliminated]
        · rw [care, other same]
        · subst same; simp [value, eliminated]
        · rw [value, other same]
      · rename_i held
        have width := lt_of_lt_of_le below n.size_le
        have later : ∀ i < k,
            (before.withLiteral (Word.single k) (a.base.bit k)).care.bit i = false := by
          intro i less
          rw [Product.care_withLiteral width, free i (by omega), decide_eq_false (by omega)]
          rfl
        obtain ⟨after, read, care, value⟩ := ih (by omega) later
        refine ⟨after, (conjoin_literal term below (free k (by omega)) _).trans read,
          fun i => ?_, fun i => ?_⟩
        · rw [care, Product.care_withLiteral width]
          by_cases same : k = i
          · subst same; simp [held]
          · rw [other same, decide_eq_false same, Bool.or_false]
        · rw [value, Product.value_withLiteral width]
          by_cases same : k = i
          · subst same; simp [held]
          · rw [other same, decide_eq_false same, Bool.and_false, Bool.or_false]

theorem conjoin_literals (a : Implicant) (n : Arity) (term : List Char) :
    Product.conjoin term n.size .one (a.tokensBelow n.size n.size) = .ok (a.product n) := by
  have free : ∀ i < n.size, Product.one.care.bit i = false := fun i _ => Word.bit_zero i
  obtain ⟨after, read, care, value⟩ := conjoin_tokensBelow (a := a) term (Nat.le_refl _) free
  have careSame : after.care = a.care n := Word.eq_of_bit_eq fun i => by
    simp [care, Product.one, Bool.and_comm]
  have valueSame : after.value = a.base &&& a.care n := Word.eq_of_bit_eq fun i => by
    simp [value, Product.one, Bool.and_comm]
  rw [read, product, ← valueSame, ← careSame]

theorem plain_of_mem_literalsBelow {c : Char} (member : c ∈ a.literalsBelow count k) :
    Text.Plain c := by
  induction k with
  | zero => cases member
  | succ k ih =>
      rw [literalsBelow] at member
      split at member
      · exact ih member
      · rcases List.mem_append.mp member with literal | later
        · rcases List.mem_append.mp literal with name | mark
          · exact Variable.plain_of_mem_name name
          · split at mark
            · cases mark
            · rw [List.mem_singleton] at mark
              subst mark
              exact ⟨by decide, by decide⟩
        · exact ih later

theorem plain_of_mem_term {c : Char} (member : c ∈ a.term count) : Text.Plain c := by
  rw [term] at member
  split at member
  · rw [List.mem_singleton] at member
    subst member
    exact ⟨by decide, by decide⟩
  · exact plain_of_mem_literalsBelow member

theorem term_ne_nil : a.term count ≠ [] := by
  rw [term]
  split
  · exact List.cons_ne_nil _ _
  · rename_i some
    exact some

/-- No term reads like the empty sum. -/
theorem head?_term_ne_zero (a : Implicant) (count : Nat) :
    ∀ c ∈ (a.term count).head?, c ≠ '0' := by
  intro c first
  rw [term] at first
  split at first
  · obtain rfl : '1' = c := by simpa using first
    decide
  · rintro rfl
    cases (starts_literalsBelow a _ _ '0' first).2

/-- The text of an implicant is read as its product. -/
theorem parse_term (a : Implicant) (n : Arity) :
    Product.parse (a.term n.size) n.size = .ok (a.product n) := by
  have read (term : List Char) := conjoin_literals a n term
  have scanned := scan_literalsBelow a n.size n.size
  rw [term]
  split
  · rename_i none
    rw [none] at scanned
    rw [← scanned] at read
    rw [Product.parse, if_pos rfl]
    exact read []
  · rename_i some
    have one : a.literalsBelow n.size n.size ≠ ['1'] := by
      intro same
      obtain ⟨-, digit⟩ := starts_literalsBelow a _ _ '1' (by rw [same]; rfl)
      cases digit
    rw [Product.parse, if_neg one, if_neg some, scanned]
    exact read _

end Terms

end Implicant

/-! ## Sums -/

namespace Text

theorem dropWhile_isBlank_eq_self {text : List Char} (first : ∀ c ∈ text.head?, isBlank c = false) :
    text.dropWhile isBlank = text := by
  cases text with
  | nil => rfl
  | cons c rest => exact List.dropWhile_cons_of_neg (by simp [first c rfl])

/-- Blanks around a text that neither begins nor ends with one are dropped. -/
theorem trim_padded {before text after : List Char} (left : ∀ c ∈ before, isBlank c = true)
    (right : ∀ c ∈ after, isBlank c = true) (first : ∀ c ∈ text.head?, isBlank c = false)
    (last : ∀ c ∈ text.getLast?, isBlank c = false) : trim (before ++ text ++ after) = text := by
  rw [trim, List.append_assoc, List.dropWhile_append_of_pos left]
  cases text with
  | nil => rw [List.nil_append, List.dropWhile_eq_nil_iff.mpr right]; rfl
  | cons c rest =>
      have start : ∀ d ∈ (c :: rest ++ after).head?, isBlank d = false := first
      have ends : ∀ d ∈ (c :: rest).reverse.head?, isBlank d = false := by
        rwa [List.head?_reverse]
      have blank : ∀ d ∈ after.reverse, isBlank d = true := fun d member =>
        right d (List.mem_reverse.mp member)
      rw [dropWhile_isBlank_eq_self start, List.reverse_append,
        List.dropWhile_append_of_pos blank, dropWhile_isBlank_eq_self ends, List.reverse_reverse]

theorem pieces_append {separator : Char} {text rest : List Char} (absent : separator ∉ text) :
    pieces separator (text ++ separator :: rest) = text :: pieces separator rest := by
  induction text with
  | nil => exact if_pos rfl
  | cons c text ih =>
      rw [List.mem_cons, not_or] at absent
      obtain ⟨other, later⟩ := absent
      rw [List.cons_append, pieces, if_neg (Ne.symm other), ih later]

theorem pieces_eq_singleton {separator : Char} {text : List Char} (absent : separator ∉ text) :
    pieces separator text = [text] := by
  induction text with
  | nil => rfl
  | cons c text ih =>
      rw [List.mem_cons, not_or] at absent
      obtain ⟨other, later⟩ := absent
      rw [pieces, if_neg (Ne.symm other), ih later]

end Text

section Sums

variable {n : Arity}

theorem sumText_cons_cons (a b : Implicant) (rest : List Implicant) (count : Nat) :
    sumText (a :: b :: rest) count =
      a.term count ++ [' ', '+', ' '] ++ sumText (b :: rest) count := by
  rw [sumText, List.map_cons, List.map_cons, List.intercalate_cons_cons]
  rfl

theorem sumText_singleton (a : Implicant) (count : Nat) : sumText [a] count = a.term count :=
  List.intercalate_singleton

/-- The text of a cover starts like its first term. -/
theorem sumText_cons (a : Implicant) (rest : List Implicant) (count : Nat) :
    ∃ more, sumText (a :: rest) count = a.term count ++ more := by
  cases rest with
  | nil => exact ⟨[], by rw [sumText_singleton, List.append_nil]⟩
  | cons b rest => exact ⟨_, by rw [sumText_cons_cons, List.append_assoc]⟩

theorem sumText_cons_ne_nil (a : Implicant) (rest : List Implicant) (count : Nat) :
    sumText (a :: rest) count ≠ [] := by
  obtain ⟨more, shape⟩ := sumText_cons a rest count
  rw [shape]
  exact List.append_ne_nil_of_left_ne_nil Implicant.term_ne_nil more

theorem head?_sumText_cons (a : Implicant) (rest : List Implicant) (count : Nat) :
    (sumText (a :: rest) count).head? = (a.term count).head? := by
  obtain ⟨more, shape⟩ := sumText_cons a rest count
  rw [shape, List.head?_append_of_ne_nil _ Implicant.term_ne_nil]

/-- The text of a cover ends like its last term. -/
theorem getLast?_sumText (a : Implicant) (rest : List Implicant) (count : Nat) :
    ∃ b : Implicant, (sumText (a :: rest) count).getLast? = (b.term count).getLast? := by
  induction rest generalizing a with
  | nil => exact ⟨a, by rw [sumText_singleton]⟩
  | cons b rest ih =>
      obtain ⟨last, ends⟩ := ih b
      refine ⟨last, ?_⟩
      have nonempty := sumText_cons_ne_nil b rest count
      rw [sumText_cons_cons, List.getLast?_append_of_ne_nil _ nonempty, ends]

/-- Neither end of the text of a cover is a blank. -/
theorem trim_sumText (a : Implicant) (rest : List Implicant) (count : Nat) :
    Text.trim (sumText (a :: rest) count) = sumText (a :: rest) count := by
  have first : ∀ c ∈ (sumText (a :: rest) count).head?, Text.isBlank c = false := by
    intro c member
    rw [head?_sumText_cons] at member
    exact (a.plain_of_mem_term (List.mem_of_mem_head? member)).1
  have last : ∀ c ∈ (sumText (a :: rest) count).getLast?, Text.isBlank c = false := by
    intro c member
    obtain ⟨b, ends⟩ := getLast?_sumText a rest count
    rw [ends] at member
    exact (b.plain_of_mem_term (List.mem_of_mem_getLast? member)).1
  have padded : Text.trim ([] ++ sumText (a :: rest) count ++ []) = sumText (a :: rest) count :=
    Text.trim_padded (by simp) (by simp) first last
  rwa [List.nil_append, List.append_nil] at padded

/-- Blanks around a term are dropped. -/
theorem trim_term (a : Implicant) {before after : List Char} {count : Nat}
    (left : ∀ c ∈ before, Text.isBlank c = true) (right : ∀ c ∈ after, Text.isBlank c = true) :
    Text.trim (before ++ a.term count ++ after) = a.term count :=
  Text.trim_padded left right
    (fun _ member => (a.plain_of_mem_term (List.mem_of_mem_head? member)).1)
    fun _ member => (a.plain_of_mem_term (List.mem_of_mem_getLast? member)).1

/-- Cutting a sum at every `+` and reading the pieces, blanks before it or not. -/
theorem parseAll_sumText (a : Implicant) (rest : List Implicant) {before : List Char}
    (blank : ∀ c ∈ before, Text.isBlank c = true) :
    Product.parseAll n.size (Text.pieces '+' (before ++ sumText (a :: rest) n.size)) =
      .ok ((a :: rest).map (·.product n)) := by
  have absent (a : Implicant) {before : List Char} (blank : ∀ c ∈ before, Text.isBlank c = true) :
      '+' ∉ before ++ a.term n.size := by
    intro member
    rcases List.mem_append.mp member with outside | inside
    · cases blank '+' outside
    · exact (a.plain_of_mem_term inside).2 rfl
  induction rest generalizing a before with
  | nil =>
      have trimmed : Text.trim (before ++ a.term n.size ++ []) = a.term n.size :=
        trim_term a blank (by simp)
      rw [List.append_nil] at trimmed
      rw [sumText_singleton, Text.pieces_eq_singleton (absent a blank)]
      simp only [Product.parseAll, trimmed, a.parse_term, List.map_cons, List.map_nil]
  | cons b rest ih =>
      have space : ∀ c ∈ [' '], Text.isBlank c = true := List.forall_mem_singleton.mpr rfl
      have shape : before ++ sumText (a :: b :: rest) n.size =
          before ++ a.term n.size ++ [' '] ++ '+' :: ([' '] ++ sumText (b :: rest) n.size) := by
        rw [sumText_cons_cons]
        simp only [List.append_assoc, List.cons_append, List.nil_append]
      have apart : '+' ∉ before ++ a.term n.size ++ [' '] := by
        rw [List.mem_append, not_or]
        exact ⟨absent a blank, by decide⟩
      rw [shape, Text.pieces_append apart]
      simp only [Product.parseAll, trim_term a blank space, a.parse_term, ih b space, List.map_cons]

/-- **What is printed is read back**: the text of a cover that is not empty stands for the
products of its implicants, in order. -/
theorem parse_formatCover {cover : List Implicant} (some : cover ≠ []) :
    Expression.parse (formatCover cover n.size) n.size = .ok ⟨cover.map (·.product n)⟩ := by
  obtain ⟨a, rest, rfl⟩ := List.exists_cons_of_ne_nil some
  have notZero : sumText (a :: rest) n.size ≠ ['0'] := by
    intro same
    refine a.head?_term_ne_zero n.size '0' ?_ rfl
    rw [← head?_sumText_cons a rest, same]
    rfl
  have read : Product.parseAll n.size (Text.pieces '+' ([] ++ sumText (a :: rest) n.size)) =
      .ok ((a :: rest).map (·.product n)) := parseAll_sumText a rest (by simp)
  rw [List.nil_append] at read
  rw [Expression.parse, formatCover, String.toList_ofList, Expression.parseChars, trim_sumText]
  simp only [if_neg notZero, read]

end Sums

/-! ## The value of what is read -/

section Value

variable {n : Arity} {a : Implicant} {c : Cube} {x : Word}

/-- On an assignment of the function's variables, a printed term is true exactly where its
implicant is. -/
theorem Implicant.Represents.eval_product_iff (repr : a.Represents c) (isOver : c.Over n)
    (admitted : n.admits x = true) : (a.product n).eval x = true ↔ x ∈ c := by
  rw [Product.eval, beq_iff_eq, Word.eq_iff_bit, Cube.mem_iff_bit]
  refine forall_congr' fun i => ?_
  -- above the variables both sides hold: neither word has a bit there
  have outside (beyond : n.size ≤ i) : x.bit i = false ∧ c.base.bit i = false :=
    ⟨Arity.bit_eq_false_of_admits admitted beyond, Arity.bit_eq_false_of_admits isOver.base beyond⟩
  simp only [product, Word.bit_and, Word.bit_xor, bit_care, repr.mask, repr.base, Word.bit_zero]
  rcases Nat.lt_or_ge i n.size with used | beyond
  · cases c.mask.bit i <;> cases x.bit i <;> cases c.base.bit i <;> simp [used]
  · simp [outside beyond, Nat.not_lt.mpr beyond]

/-- A printed term looks at the function's variables only. -/
theorem Implicant.eval_product_and_mask (a : Implicant) (n : Arity) (x : Word) :
    (a.product n).eval (x &&& n.mask) = (a.product n).eval x := by
  have same : (x &&& n.mask ^^^ (a.product n).value) &&& (a.product n).care =
      (x ^^^ (a.product n).value) &&& (a.product n).care := by
    refine Word.eq_of_bit_eq fun i => ?_
    simp only [product, Word.bit_and, Word.bit_xor, bit_care, Arity.bit_mask]
    by_cases used : i < n.size <;> simp [used]
  rw [Product.eval, Product.eval, same]

/-- The products of implicants over the function's variables have the value of the cover. -/
theorem eval_products_eq {cover : List Implicant} (built : ∀ a ∈ cover, a.BuiltOver n) (x : Word) :
    Expression.eval ⟨cover.map (·.product n)⟩ x = coverEval cover (x &&& n.mask) := by
  rw [Bool.eq_iff_iff, Expression.eval, coverEval, List.any_map, List.any_eq_true,
    List.any_eq_true]
  refine exists_congr fun a => and_congr_right fun member => ?_
  obtain ⟨c, repr, isOver⟩ := (built a member).represents
  rw [Function.comp_apply, ← a.eval_product_and_mask n x, repr.eval_iff]
  exact repr.eval_product_iff isOver (n.admits_and_mask x)

end Value

/-- **Round trip.** The text of a cover that is not empty is read as one product for each
implicant, in order: it looks at the positions in use that are not eliminated, and wants
there what the base has. If the implicants were built over these variables, what is read has
the value of the cover on every assignment. -/
theorem formatCover_roundTrip (n : Arity) (cover : List Implicant) (some : cover ≠ []) :
    ∃ e, Expression.parse (formatCover cover n.size) n.size = .ok e ∧
      e.terms = cover.map (fun a =>
        ⟨n.mask &&& ~~~a.mask, a.base &&& (n.mask &&& ~~~a.mask)⟩) ∧
      ((∀ a ∈ cover, a.BuiltOver n) → ∀ x : Word, e.eval x = coverEval cover (x &&& n.mask)) := by
  refine ⟨_, parse_formatCover some, ?_, eval_products_eq⟩
  refine List.map_congr_left fun a _ => ?_
  rw [Implicant.product, Implicant.care, UInt64.and_comm]

/-- Twenty-eight variables, the last two of them `x26` and `x27`: bits from 28 on play no part. -/
theorem formatCover_roundTrip_wide : ∃ a e,
    (Implicant.ofMinterm 0).combine (Implicant.ofMinterm 1) ⟨28, by decide⟩ = some a ∧
      Expression.parse (formatCover [a, Implicant.ofMinterm 2] 28) 28 = .ok e ∧
      e.terms.length = 2 ∧ e.eval 0x10000002 = true := by
  obtain ⟨a, merged⟩ : ∃ a,
      (Implicant.ofMinterm 0).combine (Implicant.ofMinterm 1) ⟨28, by decide⟩ = some a := ⟨_, rfl⟩
  obtain ⟨e, read, terms, value⟩ := formatCover_roundTrip ⟨28, by decide⟩
    [a, Implicant.ofMinterm 2] (List.cons_ne_nil _ _)
  have built : a.BuiltOver ⟨28, by decide⟩ :=
    .combine (.ofMinterm (by decide)) (.ofMinterm (by decide)) merged
  have both : ∀ b ∈ [a, Implicant.ofMinterm 2], b.BuiltOver ⟨28, by decide⟩ :=
    List.forall_mem_cons.mpr ⟨built, List.forall_mem_singleton.mpr (.ofMinterm (by decide))⟩
  refine ⟨a, e, merged, read, by rw [terms]; rfl, ?_⟩
  rw [value both]
  have second :
      (Implicant.ofMinterm 2).eval (0x10000002 &&& Arity.mask ⟨28, by decide⟩) = true := by decide
  exact List.any_eq_true.mpr ⟨_, List.mem_cons_of_mem _ List.mem_cons_self, second⟩

end TwoLevel
