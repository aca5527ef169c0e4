/-
# TwoLevel.Proofs.Names — variables and their names

`Variable.Names` says what position a name stands for: of a capital letter its place in the
alphabet, of an `x` with digits the number they write, from 26 on. Names are read accordingly,
also where this number does not fit in a position (`Variable.ofName?_eq_some_iff`).

A name that is printed is a capital letter, or an `x` and digits (`Variable.name_shape`), and
names the variable it is the name of (`Variable.ofName?_name`). Nothing in it ends a token, is
a blank or separates terms, which is what reading a text back rests on.
-/
import TwoLevel.Text.Blank
import TwoLevel.Variable

namespace TwoLevel

set_option autoImplicit false

namespace Text

/-- A character that neither is a blank nor separates terms. -/
def Plain (c : Char) : Prop := isBlank c = false ∧ c ≠ '+'

/-- Blanks are below `!` or above `~`. -/
theorem isBlank_eq_false {c : Char} (low : 0x21 ≤ c.toNat) (high : c.toNat ≤ 0x7E) :
    isBlank c = false := by
  simp only [isBlank, blankRanges, List.any_cons, List.any_nil, Bool.or_false,
    Bool.or_eq_false_iff, Bool.and_eq_false_iff, decide_eq_false_iff_not]
  omega

theorem isUpper_iff {c : Char} : c.isUpper = true ↔ 65 ≤ c.toNat ∧ c.toNat ≤ 90 := by
  show decide (c.val ≥ 'A'.val ∧ c.val ≤ 'Z'.val) = true ↔ _
  rw [decide_eq_true_iff]
  exact and_congr UInt32.le_iff_toNat_le UInt32.le_iff_toNat_le

theorem isDigit_of_isUpper {c : Char} (upper : c.isUpper = true) : c.isDigit = false := by
  have range := isUpper_iff.mp upper
  refine Bool.eq_false_iff.mpr fun digit => ?_
  have other : 48 ≤ c.toNat ∧ c.toNat ≤ 57 := Char.isDigit_iff_toNat.mp digit
  omega

theorem plain_of_isUpper {c : Char} (upper : c.isUpper = true) : Plain c := by
  have range := isUpper_iff.mp upper
  refine ⟨isBlank_eq_false (by omega) (by omega), ?_⟩
  rintro rfl
  cases upper

theorem plain_of_isDigit {c : Char} (digit : c.isDigit = true) : Plain c := by
  have range : 48 ≤ c.toNat ∧ c.toNat ≤ 57 := Char.isDigit_iff_toNat.mp digit
  refine ⟨isBlank_eq_false (by omega) (by omega), ?_⟩
  rintro rfl
  cases digit

end Text

namespace Variable

variable {v : Variable}

/-- The letters are what the first positions are read from. -/
theorem letter_spec : ∀ p < letters, (Char.ofNat ('A'.toNat + p)).isUpper = true ∧
    (Char.ofNat ('A'.toNat + p)).toNat - 'A'.toNat = p := by
  decide

theorem name_of_lt (small : v.position.toNat < letters) :
    v.name = [Char.ofNat ('A'.toNat + v.position.toNat)] :=
  if_pos small

theorem name_of_le (large : letters ≤ v.position.toNat) :
    v.name = 'x' :: Nat.toDigits 10 v.position.toNat :=
  if_neg (Nat.not_lt.mpr large)

/-- The position a name stands for: of a capital letter its place in the alphabet, and of an
`x` with decimal digits the number they write, from 26 on. -/
inductive Names : List Char → Nat → Prop
  | letter {c : Char} (upper : c.isUpper = true) : Names [c] (c.toNat - 'A'.toNat)
  | numbered {digits : List Char} (some : digits ≠ []) (all : ∀ d ∈ digits, d.isDigit = true)
      (large : 26 ≤ Nat.ofDigitChars 10 digits 0) :
      Names ('x' :: digits) (Nat.ofDigitChars 10 digits 0)

/-- A variable's name stands for its position. -/
theorem names_name (v : Variable) : Names v.name v.position.toNat := by
  rcases Nat.lt_or_ge v.position.toNat letters with small | large
  · obtain ⟨upper, value⟩ := letter_spec _ small
    have named := Names.letter upper
    rwa [value, ← name_of_lt small] at named
  · have value : Nat.ofDigitChars 10 (Nat.toDigits 10 v.position.toNat) 0 = v.position.toNat :=
      Nat.ofDigitChars_ten_toDigits
    have digits : ∀ c ∈ Nat.toDigits 10 v.position.toNat, c.isDigit = true := fun c member =>
      Nat.isDigit_of_mem_toDigits (by decide) (by decide) member
    have named := Names.numbered Nat.toDigits_ne_nil digits (by rw [value]; exact large)
    rwa [value, ← name_of_le large] at named

/-- A name is a capital letter, or an `x` and at least one digit. -/
theorem name_shape (v : Variable) :
    (∃ c, v.name = [c] ∧ c.isUpper = true) ∨
      ∃ digits, v.name = 'x' :: digits ∧ digits ≠ [] ∧ ∀ c ∈ digits, c.isDigit = true := by
  have names := v.names_name
  generalize v.name = name, v.position.toNat = position at names
  cases names with
  | letter upper => exact .inl ⟨_, rfl, upper⟩
  | numbered some all _ => exact .inr ⟨_, rfl, some, all⟩

theorem plain_of_mem_name {c : Char} (member : c ∈ v.name) : Text.Plain c := by
  rcases v.name_shape with ⟨letter, shape, upper⟩ | ⟨digits, shape, -, all⟩
  · rw [shape, List.mem_singleton] at member
    exact member ▸ Text.plain_of_isUpper upper
  · rw [shape, List.mem_cons] at member
    rcases member with rfl | digit
    · exact ⟨by decide, by decide⟩
    · exact Text.plain_of_isDigit (all c digit)

/-- Digits beyond the range of positions name none. -/
theorem positionOfDigits?_eq_some_iff {digits : List Char} {position : UInt32} :
    positionOfDigits? digits = some position ↔
      digits ≠ [] ∧ (∀ d ∈ digits, d.isDigit = true) ∧
        Nat.ofDigitChars 10 digits 0 = position.toNat := by
  unfold positionOfDigits?
  rw [← List.all_eq_true, ← and_assoc]
  by_cases shape : digits ≠ [] ∧ digits.all Char.isDigit = true
  · rw [if_pos shape]
    show (if _ then _ else _) = _ ↔ _
    constructor
    · intro named
      split at named
      · next fits =>
        obtain rfl := Option.some.inj named
        exact ⟨shape, (UInt32.toNat_ofNat_of_lt' fits).symm⟩
      · cases named
    · rintro ⟨-, value⟩
      rw [value, if_pos position.toNat_lt, UInt32.ofNat_toNat]
  · rw [if_neg shape]
    constructor
    · intro named; cases named
    · rintro ⟨digital, -⟩; exact absurd digital shape

theorem names_of_ofName? {name : List Char} (named : ofName? name = some v) :
    Names name v.position.toNat := by
  unfold ofName? at named
  split at named
  · cases named
  · next c rest =>
    split at named
    · next capital =>
      obtain ⟨upper, rfl⟩ := capital
      obtain rfl := Option.some.inj named
      have range := Text.isUpper_iff.mp upper
      have position : (UInt32.ofNat (c.toNat - 'A'.toNat)).toNat = c.toNat - 'A'.toNat := by
        rw [UInt32.toNat_ofNat']
        omega
      rw [position]
      exact .letter upper
    · split at named
      · next mark =>
        subst mark
        split at named
        · next position found =>
          split at named
          · next large =>
            obtain rfl := Option.some.inj named
            obtain ⟨some, all, value⟩ := positionOfDigits?_eq_some_iff.mp found
            rw [← value] at large ⊢
            exact .numbered some all large
          · cases named
        · cases named
      · cases named

theorem ofName?_of_names {name : List Char} (names : Names name v.position.toNat) :
    ofName? name = some v := by
  generalize known : v.position.toNat = position at names
  cases names with
  | letter upper => rw [ofName?, if_pos ⟨upper, rfl⟩, ← known, UInt32.ofNat_toNat]
  | @numbered digits some all large =>
      have mark : ¬('x'.isUpper = true ∧ digits = []) := fun both => absurd both.1 (by decide)
      have found := positionOfDigits?_eq_some_iff.mpr ⟨some, all, known.symm⟩
      rw [← known] at large
      rw [ofName?, if_neg mark, if_pos rfl, found]
      exact if_pos large

theorem ofName?_eq_some_iff {name : List Char} :
    ofName? name = some v ↔ Names name v.position.toNat :=
  ⟨names_of_ofName?, ofName?_of_names⟩

/-- A variable's name names it. -/
theorem ofName?_name (v : Variable) : ofName? v.name = some v :=
  ofName?_of_names v.names_name

end Variable

end TwoLevel
