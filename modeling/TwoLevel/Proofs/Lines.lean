/-
# TwoLevel.Proofs.Lines — reading a printed text by lines and columns

What a text says is stated on the text itself. `Text.lines` cuts it in front of every line
feed; lines that hold none are read back one for one (`Text.lines_flatMap`).

`Text.numerals` lists the decimal numbers in a line, each with its value and the column of its
last digit. A digit right behind another belongs to the same number, so that a number ends
where something else follows. Of a line in which every number is set off, by a space or in
brackets, exactly the numbers are read that were written (`Numeral.scan_numeral`,
`Text.values_numerals_decimals`).
-/
import TwoLevel.Proofs.RoundTrip
import TwoLevel.Text.Bracketed

namespace TwoLevel

set_option autoImplicit false

/-! ## Lines -/

namespace Text

/-- The lines of a text, each of them what precedes a line feed. -/
def lines (text : List Char) : List (List Char) := (pieces '\n' text).dropLast

theorem pieces_ne_nil (separator : Char) (text : List Char) : pieces separator text ≠ [] := by
  cases text with
  | nil => exact List.cons_ne_nil _ _
  | cons c rest =>
      rw [pieces]
      split
      · exact List.cons_ne_nil _ _
      · split <;> exact List.cons_ne_nil _ _

/-- Lines without a line feed of their own are read back. -/
theorem lines_flatMap {written : List (List Char)} (apart : ∀ line ∈ written, '\n' ∉ line) :
    lines (written.flatMap (· ++ ['\n'])) = written := by
  induction written with
  | nil => rfl
  | cons line rest ih =>
      obtain ⟨first, others⟩ := List.forall_mem_cons.mp apart
      have shape : (line :: rest).flatMap (· ++ ['\n']) =
          line ++ '\n' :: rest.flatMap (· ++ ['\n']) := by
        rw [List.flatMap_cons, List.append_assoc, List.singleton_append]
      rw [shape, lines, pieces_append first, List.dropLast_cons_of_ne_nil (pieces_ne_nil _ _)]
      exact congrArg (line :: ·) (ih others)

/-- What is in neither the separator nor the parts is not in the text of the parts. -/
theorem not_mem_intercalate {c : Char} {separator : List Char} {parts : List (List Char)}
    (apart : c ∉ separator) (free : ∀ part ∈ parts, c ∉ part) :
    c ∉ separator.intercalate parts := by
  induction parts with
  | nil => exact List.not_mem_nil
  | cons part rest ih =>
      obtain ⟨first, others⟩ := List.forall_mem_cons.mp free
      cases rest with
      | nil => rwa [List.intercalate_singleton]
      | cons next rest =>
          rw [List.intercalate_cons_cons]
          simp [first, apart, ih others]

@[simp] theorem newline_not_mem_toDigits (m : Nat) : '\n' ∉ Nat.toDigits 10 m := by
  intro member
  have digit := Nat.isDigit_of_mem_toDigits (by decide) (by decide) member
  cases digit

end Text

/-! ## Numbers -/

/-- A decimal number in a line. -/
structure Numeral where
  value : Nat
  /-- The column of its last digit. -/
  column : Nat
  deriving DecidableEq, Repr

namespace Numeral

/-- The number that a digit begins or, right behind another one, goes on with. -/
def push (before : Option Numeral) (digit : Char) (column : Nat) : Numeral :=
  ⟨10 * before.elim 0 value + (digit.toNat - '0'.toNat), column⟩

/-- The numbers in what is left of a line from a column on; `before` is one that ends right
in front of it. -/
def scan (column : Nat) : Option Numeral → List Char → List Numeral
  | before, [] => before.toList
  | before, c :: rest =>
      if c.isDigit then scan (column + 1) (some (push before c column)) rest
      else before.toList ++ scan (column + 1) none rest

variable {line : List Char} {column : Nat}

/-- What is no digit holds no number. -/
theorem scan_append {before : List Char} (blank : ∀ c ∈ before, c.isDigit = false) :
    scan column none (before ++ line) = scan (column + before.length) none line := by
  induction before generalizing column with
  | nil => rfl
  | cons c before ih =>
      obtain ⟨first, others⟩ := List.forall_mem_cons.mp blank
      rw [List.cons_append, scan, if_neg (Bool.eq_false_iff.mp first), Option.toList_none,
        List.nil_append, ih others, List.length_cons, Nat.add_right_comm, Nat.add_assoc]

/-- A number goes on as long as there are digits. -/
theorem scan_digits {digits : List Char} {value : Nat} (all : ∀ c ∈ digits, c.isDigit = true) :
    scan (column + 1) (some ⟨value, column⟩) (digits ++ line) =
      scan (column + digits.length + 1)
        (some ⟨Nat.ofDigitChars 10 digits value, column + digits.length⟩) line := by
  induction digits generalizing column value with
  | nil => rfl
  | cons d digits ih =>
      obtain ⟨first, others⟩ := List.forall_mem_cons.mp all
      rw [List.cons_append, scan, if_pos first]
      show scan (column + 1 + 1) (some ⟨10 * value + (d.toNat - '0'.toNat), column + 1⟩) _ = _
      rw [ih others, List.length_cons, Nat.add_comm digits.length 1, ← Nat.add_assoc]
      rfl

/-- A number ends where no digit follows. -/
theorem scan_some {ended : Numeral} (apart : ∀ c ∈ line.head?, c.isDigit = false) :
    scan column (some ended) line = ended :: scan column none line := by
  cases line with
  | nil => rfl
  | cons c rest =>
      have other : ¬c.isDigit = true := Bool.eq_false_iff.mp (apart c rfl)
      rw [scan, if_neg other, scan, if_neg other]
      rfl

/-- A number that is set off on both sides is read, and where its last digit is. -/
theorem scan_numeral {separator : Char} (m : Nat) (set : separator.isDigit = false)
    (apart : ∀ c ∈ line.head?, c.isDigit = false) :
    scan column none (separator :: (Nat.toDigits 10 m ++ line)) =
      ⟨m, column + (Nat.toDigits 10 m).length⟩ ::
        scan (column + 1 + (Nat.toDigits 10 m).length) none line := by
  have digits : ∀ c ∈ Nat.toDigits 10 m, c.isDigit = true := fun c member =>
    Nat.isDigit_of_mem_toDigits (by decide) (by decide) member
  have value : Nat.ofDigitChars 10 (Nat.toDigits 10 m) 0 = m := Nat.ofDigitChars_ten_toDigits
  rw [scan, if_neg (Bool.eq_false_iff.mp set), Option.toList_none, List.nil_append]
  obtain ⟨d, more, shape⟩ := List.exists_cons_of_ne_nil (Nat.toDigits_ne_nil (n := m) (b := 10))
  rw [shape] at digits value ⊢
  obtain ⟨first, others⟩ := List.forall_mem_cons.mp digits
  rw [List.cons_append, scan, if_pos first]
  show scan (column + 1 + 1) (some ⟨10 * 0 + (d.toNat - '0'.toNat), column + 1⟩) _ = _
  rw [scan_digits others, scan_some apart]
  rw [Nat.ofDigitChars_cons] at value
  rw [value, List.length_cons]
  congr 2
  omega

example : scan 0 none "  0 12  [305, 7]".toList = [⟨0, 2⟩, ⟨12, 5⟩, ⟨305, 11⟩, ⟨7, 14⟩] := by decide

end Numeral

namespace Text

/-- The numbers in a line, from left to right. -/
def numerals (line : List Char) : List Numeral := Numeral.scan 0 none line

/-- Numbers in brackets, separated by a comma and a space. -/
def decimals (values : List Nat) : List Char :=
  '[' :: ([',', ' '].intercalate (values.map (Nat.toDigits 10)) ++ [']'])

theorem toList_bracketed_nat (values : List Nat) : (bracketed values).toList = decimals values := by
  have digits : String.toList ∘ toString = Nat.toDigits 10 := funext fun _ => Nat.toList_repr
  simp [bracketed, decimals, String.toList_intercalate, digits]

theorem toList_bracketed_word (minterms : List Word) :
    (bracketed minterms).toList = decimals (minterms.map (·.toNat)) := by
  have digits : String.toList ∘ toString = fun m : Word => Nat.toDigits 10 m.toNat :=
    funext fun _ => Nat.toList_repr
  simp [bracketed, decimals, String.toList_intercalate, digits, Function.comp_def]

theorem newline_not_mem_decimals (values : List Nat) : '\n' ∉ decimals values := by
  have inside : '\n' ∉ [',', ' '].intercalate (values.map (Nat.toDigits 10)) := by
    refine not_mem_intercalate (by decide) fun part listed => ?_
    obtain ⟨v, -, rfl⟩ := List.mem_map.mp listed
    exact newline_not_mem_toDigits v
  simpa [decimals] using inside

/-- Behind the bracket, or behind a comma and a space, the numbers are read one by one. -/
theorem values_scan_entries {separator : Char} {column : Nat} (set : separator.isDigit = false)
    (values : List Nat) :
    (Numeral.scan column none
      (separator :: ([',', ' '].intercalate (values.map (Nat.toDigits 10)) ++ [']']))).map
        Numeral.value = values := by
  induction values generalizing separator column with
  | nil => simp [Numeral.scan, set]
  | cons v values ih =>
      cases values with
      | nil =>
          rw [List.map_singleton, List.intercalate_singleton,
            Numeral.scan_numeral v set (by simp), List.map_cons]
          simp [Numeral.scan]
      | cons w values =>
          have shape : separator :: ([',', ' '].intercalate
                ((v :: w :: values).map (Nat.toDigits 10)) ++ [']']) =
              separator :: (Nat.toDigits 10 v ++ ([','] ++ ' ' ::
                ([',', ' '].intercalate ((w :: values).map (Nat.toDigits 10)) ++ [']']))) := by
            simp [List.intercalate_cons_cons]
          rw [shape, Numeral.scan_numeral v set (by simp), Numeral.scan_append (by simp),
            List.map_cons, ih (by decide)]

/-- Of a list in brackets its entries are read. -/
theorem values_numerals_decimals (values : List Nat) :
    (numerals (decimals values)).map Numeral.value = values :=
  values_scan_entries (by decide) values

end Text

end TwoLevel
