/-
# TwoLevel.Proofs.Spellings — which texts stand for a variable

Every variable is read back from its name. The converse is not so: the digits after an `x` are
read by their value, and zeros in front of them do not change it. Digits are the numeral of
their value behind such zeros (`Variable.eq_padded`), so the texts that stand for a variable
from position 26 on are its name and the same with any number of zeros after the `x`, while a
letter has no other spelling (`Variable.ofName?_eq_some_iff_spelling`). A text that stands for
a variable is its name exactly if no zero follows the `x` (`Variable.ofName?_spelled`).
-/
import Mathlib.Data.List.Induction
import TwoLevel.Proofs.Names

namespace TwoLevel

set_option autoImplicit false

namespace Variable

variable {v : Variable} {name digits : List Char}

/-! ## Digits and their value -/

theorem digitChar_sub {d : Char} (digit : d.isDigit = true) : Nat.digitChar (d.toNat - 48) = d := by
  have range : 48 ≤ d.toNat ∧ d.toNat ≤ 57 := Char.isDigit_iff_toNat.mp digit
  apply Char.toNat_inj.mp
  rw [Nat.toNat_digitChar_of_lt_ten (by omega)]
  omega

theorem ofDigitChars_concat (digits : List Char) (d : Char) :
    Nat.ofDigitChars 10 (digits ++ [d]) 0 =
      10 * Nat.ofDigitChars 10 digits 0 + (d.toNat - 48) := by
  rw [Nat.ofDigitChars_append, Nat.ofDigitChars_cons]
  rfl

/-- Zeros in front do not change the value. -/
theorem ofDigitChars_padded (zeros : Nat) (digits : List Char) :
    Nat.ofDigitChars 10 (List.replicate zeros '0' ++ digits) 0 = Nat.ofDigitChars 10 digits 0 := by
  induction zeros with
  | zero => rfl
  | succ zeros ih =>
      rw [List.replicate_succ, List.cons_append, Nat.ofDigitChars_cons]
      exact ih

/-- Digits are the numeral of their value behind zeros, which are all there is if that is `0`. -/
theorem eq_padded (all : ∀ d ∈ digits, d.isDigit = true) :
    ∃ zeros, digits = List.replicate zeros '0' ++
      if Nat.ofDigitChars 10 digits 0 = 0 then []
      else Nat.toDigits 10 (Nat.ofDigitChars 10 digits 0) := by
  -- by induction on the digits from the left, each new one being the last
  induction digits using List.reverseRecOn with
  | nil => exact ⟨0, rfl⟩
  | append_singleton digits d ih =>
      obtain ⟨zeros, shape⟩ := ih fun c member => all c (List.mem_append_left _ member)
      have digit : d.isDigit = true := all d (List.mem_append_right _ List.mem_cons_self)
      have range : 48 ≤ d.toNat ∧ d.toNat ≤ 57 := Char.isDigit_iff_toNat.mp digit
      have last : Nat.toDigits 10 (d.toNat - 48) = [d] := by
        rw [Nat.toDigits_of_lt_base (by omega), digitChar_sub digit]
      rw [ofDigitChars_concat]
      by_cases none : Nat.ofDigitChars 10 digits 0 = 0
      · rw [if_pos none, List.append_nil] at shape
        rw [none, Nat.mul_zero, Nat.zero_add]
        by_cases zero : d.toNat - 48 = 0
        · have own : d = '0' := by
            rw [← digitChar_sub digit, zero]
            rfl
          refine ⟨zeros + 1, ?_⟩
          rw [if_pos zero, List.append_nil, List.replicate_succ', ← shape, own]
        · refine ⟨zeros, ?_⟩
          rw [if_neg zero, last, ← shape]
      · have more : 10 * Nat.ofDigitChars 10 digits 0 + (d.toNat - 48) ≠ 0 := by omega
        have numeral := Nat.toDigits_append_toDigits (b := 10) (d := d.toNat - 48) (by decide)
          (Nat.pos_of_ne_zero none) (by omega)
        rw [if_neg none] at shape
        refine ⟨zeros, ?_⟩
        rw [if_neg more, ← numeral, last, ← List.append_assoc, ← shape]

/-! ## Spellings -/

/-- The name of a variable, with a number of zeros in front of its digits if it has any. -/
def spelling (v : Variable) (zeros : Nat) : List Char :=
  if v.position.toNat < letters then v.name
  else 'x' :: (List.replicate zeros '0' ++ Nat.toDigits 10 v.position.toNat)

theorem spelling_zero (v : Variable) : v.spelling 0 = v.name := by
  unfold spelling
  split
  · rfl
  · next large => exact (name_of_le (Nat.not_lt.mp large)).symm

theorem names_spelling (v : Variable) (zeros : Nat) :
    Names (v.spelling zeros) v.position.toNat := by
  unfold spelling
  split
  · exact v.names_name
  · next large =>
    have value : Nat.ofDigitChars 10
        (List.replicate zeros '0' ++ Nat.toDigits 10 v.position.toNat) 0 = v.position.toNat := by
      rw [ofDigitChars_padded]
      exact Nat.ofDigitChars_ten_toDigits
    have some : List.replicate zeros '0' ++ Nat.toDigits 10 v.position.toNat ≠ [] :=
      List.append_ne_nil_of_right_ne_nil _ Nat.toDigits_ne_nil
    have all : ∀ d ∈ List.replicate zeros '0' ++ Nat.toDigits 10 v.position.toNat,
        d.isDigit = true := by
      intro d member
      rcases List.mem_append.mp member with zero | digit
      · rw [List.eq_of_mem_replicate zero]
        rfl
      · exact Nat.isDigit_of_mem_toDigits (by decide) (by decide) digit
    have named := Names.numbered some all (by rw [value]; exact Nat.not_lt.mp large)
    rwa [value] at named

/-- A letter stands for one of the first positions, and is the name of the variable there. -/
theorem letter_eq {c : Char} (upper : c.isUpper = true) :
    c.toNat - 'A'.toNat < letters ∧ Char.ofNat ('A'.toNat + (c.toNat - 'A'.toNat)) = c := by
  have range := Text.isUpper_iff.mp upper
  have first : 'A'.toNat = 65 := rfl
  have count : letters = 26 := rfl
  refine ⟨by omega, ?_⟩
  rw [first, Nat.add_sub_cancel' range.1, Char.ofNat_toNat]

/-- What stands for a variable is one of its spellings. -/
theorem exists_spelling (names : Names name v.position.toNat) :
    ∃ zeros, name = v.spelling zeros := by
  generalize known : v.position.toNat = position at names
  cases names with
  | letter upper =>
      obtain ⟨small, own⟩ := letter_eq upper
      rw [← known] at small own
      refine ⟨0, ?_⟩
      rw [spelling, if_pos small, name_of_lt small, own]
  | @numbered digits some all large =>
      obtain ⟨zeros, shape⟩ := eq_padded all
      have positive : Nat.ofDigitChars 10 digits 0 ≠ 0 := by omega
      have beyond : ¬v.position.toNat < letters := by
        rw [known]
        exact Nat.not_lt.mpr large
      rw [if_neg positive, ← known] at shape
      exact ⟨zeros, by rw [spelling, if_neg beyond, ← shape]⟩

/-- The texts that are read as a variable are its spellings. -/
theorem ofName?_eq_some_iff_spelling :
    ofName? name = some v ↔ ∃ zeros, name = v.spelling zeros := by
  rw [ofName?_eq_some_iff]
  constructor
  · exact exists_spelling
  · rintro ⟨zeros, rfl⟩
    exact v.names_spelling zeros

/-- The numeral of a positive number does not start with a zero: what followed the zero would
have the same value, and so be at least as long as the whole. -/
theorem toDigits_ne_zero_cons {k : Nat} (positive : 0 < k) (rest : List Char) :
    Nat.toDigits 10 k ≠ '0' :: rest := by
  intro shape
  have value : Nat.ofDigitChars 10 rest 0 = k := by
    have whole : Nat.ofDigitChars 10 (Nat.toDigits 10 k) 0 = k := Nat.ofDigitChars_ten_toDigits
    rw [shape] at whole
    exact whole
  have all : ∀ d ∈ rest, d.isDigit = true := by
    intro d member
    apply Nat.isDigit_of_mem_toDigits (b := 10) (by decide) (by decide)
    rw [shape]
    exact List.mem_cons_of_mem _ member
  obtain ⟨zeros, padded⟩ := eq_padded all
  rw [value, if_neg (Nat.ne_of_gt positive), shape] at padded
  have size := congrArg List.length padded
  simp only [List.length_append, List.length_cons] at size
  omega

/-- The spellings other than the name are those with a zero after an `x`. -/
theorem spelling_eq_name_iff (v : Variable) (zeros : Nat) :
    v.spelling zeros = v.name ↔ ¬['x', '0'] <+: v.spelling zeros := by
  rcases Nat.lt_or_ge v.position.toNat letters with small | large
  · rw [spelling, if_pos small, name_of_lt small]
    refine iff_of_true rfl fun start => ?_
    have size := start.length_le
    simp at size
  · have positive : 0 < v.position.toNat := Nat.lt_of_lt_of_le (by decide) large
    rw [spelling, if_neg (Nat.not_lt.mpr large), name_of_le large]
    cases zeros with
    | zero =>
        refine iff_of_true rfl ?_
        rintro ⟨rest, shape⟩
        exact toDigits_ne_zero_cons positive rest (List.cons.inj shape).2.symm
    | succ zeros =>
        refine iff_of_false (fun same => ?_) (not_not.mpr ⟨_, rfl⟩)
        have size := congrArg List.length same
        simp at size

/-- **The spellings of a variable.** A text is read as a variable exactly if it is its name, with
any number of zeros in front of the digits where the name has digits. It is the name exactly if
besides it does not start with `x0`. -/
theorem ofName?_spelled (name : List Char) (v : Variable) :
    (ofName? name = some v ↔ ∃ zeros, name = v.spelling zeros) ∧
      (name = v.name ↔ ofName? name = some v ∧ ¬['x', '0'] <+: name) := by
  refine ⟨ofName?_eq_some_iff_spelling, ?_⟩
  rw [ofName?_eq_some_iff_spelling]
  constructor
  · rintro rfl
    have plain := v.spelling_zero
    exact ⟨⟨0, plain.symm⟩, plain ▸ (v.spelling_eq_name_iff 0).mp plain⟩
  · rintro ⟨⟨zeros, rfl⟩, plain⟩
    exact (v.spelling_eq_name_iff zeros).mpr plain

/-- `x026` is read as the variable whose name is `x26`. -/
theorem ofName?_zero_after_x :
    ofName? ['x', '0', '2', '6'] = some ⟨26⟩ ∧ ['x', '0', '2', '6'] ≠ Variable.name ⟨26⟩ := by
  decide

end Variable

end TwoLevel
