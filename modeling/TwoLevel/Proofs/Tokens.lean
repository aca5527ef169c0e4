/-
# TwoLevel.Proofs.Tokens — what is cut from a text, and what it names

`Lexed` says how a text falls into literals, with no reference to how it is read: a name is any
character, or an `x` with all the digits after it, and an apostrophe that follows belongs to
it. The scanner finds this division, and there is no other (`Token.lexed_iff`): after every
character it is between two literals, or within one whose name is read up to there.

A token denotes a literal if its name stands for a variable of the function. This is what the
reader resolves (`Token.denotes_iff`), since positions below an arity are few.

A literal can also be found by the bytes it occupies. Every further character of a name is a
digit and takes one byte, so that counting bytes never leaves the boundaries of characters
(`Token.Lexed.sliced`).
-/
import Mathlib.Data.String.Basic
import TwoLevel.Arity
import TwoLevel.Expression.Parser
import TwoLevel.Proofs.Names

namespace TwoLevel

set_option autoImplicit false

/-! ## Literals in a text -/

namespace Token

/-- The text of a literal. -/
def text (t : Token) : List Char := t.name ++ if t.complemented then ['\''] else []

/-- What can be read as one name. -/
inductive IsName : List Char → Prop
  | single (c : Char) : IsName [c]
  | numbered {digits : List Char} (all : ∀ d ∈ digits, d.isDigit = true) : IsName ('x' :: digits)

/-- Nothing that follows belongs to the literal: no apostrophe, and after an `x` no digit. -/
def Ends (t : Token) (rest : List Char) : Prop :=
  t.complemented = false →
    ∀ c ∈ rest.head?, c ≠ '\'' ∧ (t.name.head? = some 'x' → c.isDigit = false)

/-- A text is the literals one after another, each as long as it can be. -/
inductive Lexed : List Char → List Token → Prop
  | nil : Lexed [] []
  | cons {t : Token} {rest : List Char} {tokens : List Token} (name : IsName t.name)
      (ends : t.Ends rest) (others : Lexed rest tokens) : Lexed (t.text ++ rest) (t :: tokens)

section Scan

variable {name rest : List Char} {tokens : List Token} {t : Token}

theorem extendedBy_eq_false_iff {c : Char} :
    extendedBy name c = false ↔ (name.head? = some 'x' → c.isDigit = false) := by
  simp [extendedBy]

theorem isName_append {c : Char} (begun : IsName name) (longer : extendedBy name c = true) :
    IsName (name ++ [c]) := by
  simp only [extendedBy, Bool.and_eq_true, beq_iff_eq] at longer
  obtain ⟨mark, digit⟩ := longer
  cases begun with
  | single first =>
      obtain rfl : first = 'x' := by simpa using mark
      exact .numbered fun d member => by rwa [List.mem_singleton.mp member]
  | numbered all =>
      refine .numbered fun d member => ?_
      rcases List.mem_append.mp member with earlier | last
      · exact all d earlier
      · rwa [List.mem_singleton.mp last]

/-- By induction on the text, between two literals and within one. -/
theorem lexed_scanFrom (text : List Char) :
    Lexed text (scanFrom none text) ∧
      ∀ name, IsName name → Lexed (name ++ text) (scanFrom (some name) text) := by
  induction text with
  | nil =>
      refine ⟨.nil, fun name begun => ?_⟩
      have alone := Lexed.cons (t := ⟨name, false⟩) begun (fun _ c first => by cases first) .nil
      rwa [text, if_neg Bool.false_ne_true, List.append_nil] at alone
  | cons c rest ih =>
      obtain ⟨between, within⟩ := ih
      refine ⟨within [c] (.single c), fun name begun => ?_⟩
      rw [scanFrom]
      split
      · next mark =>
        subst mark
        have literal := Lexed.cons (t := ⟨name, true⟩) begun (fun plain => by cases plain) between
        rwa [text, if_pos rfl, List.append_assoc] at literal
      · next plain =>
        split
        · next longer =>
          have literal := within (name ++ [c]) (isName_append begun longer)
          rwa [List.append_assoc] at literal
        · next stop =>
          have stops := extendedBy_eq_false_iff.mp (Bool.eq_false_iff.mpr stop)
          have ends : Ends ⟨name, false⟩ ([c] ++ rest) := by
            intro _ d first
            obtain rfl : c = d := by simpa using first
            exact ⟨plain, stops⟩
          have literal := Lexed.cons begun ends (within [c] (.single c))
          rwa [text, if_neg Bool.false_ne_true, List.append_nil] at literal

theorem scanFrom_extend {more : List Char}
    (mark : name.head? = some 'x') (digits : ∀ c ∈ more, c.isDigit = true) :
    scanFrom (some name) (more ++ rest) = scanFrom (some (name ++ more)) rest := by
  induction more generalizing name with
  | nil => rw [List.nil_append, List.append_nil]
  | cons c more ih =>
      obtain ⟨digit, others⟩ := List.forall_mem_cons.mp digits
      have plain : c ≠ '\'' := by rintro rfl; cases digit
      have longer : extendedBy name c = true := by simp [extendedBy, mark, digit]
      have start : (name ++ [c]).head? = some 'x' := by
        rw [List.head?_append, mark]
        rfl
      rw [List.cons_append, scanFrom, if_neg plain, if_pos longer, ih start others,
        List.append_assoc, List.singleton_append]

theorem scanFrom_name (begun : IsName name) (rest : List Char) :
    scanFrom none (name ++ rest) = scanFrom (some name) rest := by
  cases begun with
  | single c => rfl
  | numbered all => exact scanFrom_extend rfl all

/-- The scanner reads a literal up to its end. -/
theorem scanFrom_token (begun : IsName t.name) (ends : t.Ends rest) :
    scanFrom none (t.text ++ rest) = t :: scanFrom none rest := by
  obtain ⟨name, complemented⟩ := t
  rw [text, List.append_assoc, scanFrom_name begun]
  cases complemented with
  | true => rfl
  | false =>
      cases rest with
      | nil => rfl
      | cons c rest =>
          obtain ⟨plain, stops⟩ := ends rfl c rfl
          have stop := extendedBy_eq_false_iff.mpr stops
          simp [scanFrom, plain, stop]

/-- The scanner finds the one division of a text into literals. -/
theorem lexed_iff {piece : List Char} : Lexed piece tokens ↔ scan piece = tokens := by
  constructor
  · intro lexed
    induction lexed with
    | nil => rfl
    | cons name ends _ ih =>
        rw [scan, scanFrom_token name ends, ← scan, ih]
  · rintro rfl
    exact (lexed_scanFrom piece).1

end Scan

/-! ## Bytes -/

/-- The byte behind a name that starts at a byte: behind its first character, and one further
for every digit. -/
def stop (t : Token) (start : Nat) : Nat :=
  match t.name with
  | [] => start
  | c :: digits => start + c.utf8Size + digits.length

/-- The bytes at which the names of literals start and stop, if the first starts at `start`. -/
def spans (start : Nat) : List Token → List (Nat × Nat)
  | [] => []
  | t :: rest =>
      (start, t.stop start) :: spans (t.stop start + if t.complemented then 1 else 0) rest

/-- The bytes from `start` to `stop` of a text are whole characters, and those of `name`. -/
structure Slices (piece : List Char) (start stop : Nat) (name : List Char) : Prop where
  start_valid : String.Pos.Raw.IsValid (String.ofList piece) ⟨start⟩
  stop_valid : String.Pos.Raw.IsValid (String.ofList piece) ⟨stop⟩
  extract_eq : String.Pos.Raw.extract (String.ofList piece) ⟨start⟩ ⟨stop⟩ = String.ofList name

theorem utf8Len_digits {digits : List Char} (all : ∀ d ∈ digits, d.isDigit = true) :
    String.utf8Len digits = digits.length := by
  induction digits with
  | nil => rfl
  | cons d digits ih =>
      obtain ⟨digit, others⟩ := List.forall_mem_cons.mp all
      have range : 48 ≤ d.toNat ∧ d.toNat ≤ 57 := Char.isDigit_iff_toNat.mp digit
      have one : d.utf8Size = 1 := by
        rw [Char.utf8Size_eq_one_iff, UInt32.le_iff_toNat_le]
        show d.toNat ≤ 127
        omega
      rw [String.utf8Len_cons, ih others, one, List.length_cons]

theorem stop_eq {t : Token} (begun : IsName t.name) (start : Nat) :
    t.stop start = start + String.utf8Len t.name := by
  obtain ⟨name, complemented⟩ := t
  unfold stop
  cases begun with
  | single c =>
      show start + c.utf8Size + 0 = start + (0 + c.utf8Size)
      omega
  | numbered all =>
      show start + 'x'.utf8Size + _ = start + (_ + 'x'.utf8Size)
      rw [utf8Len_digits all]
      omega

/-- The end of a front part of a text is the boundary of a character. -/
theorem isValid_append (before after : List Char) :
    String.Pos.Raw.IsValid (String.ofList (before ++ after)) ⟨String.utf8Len before⟩ := by
  rw [String.Pos.Raw.isValid_iff_exists_append]
  refine ⟨String.ofList before, String.ofList after, String.ofList_append, ?_⟩
  rw [String.rawEndPos_ofList]

theorem slices_append (before name after : List Char) :
    Slices (before ++ name ++ after) (String.utf8Len before)
      (String.utf8Len before + String.utf8Len name) name where
  start_valid := by
    rw [List.append_assoc]
    exact isValid_append before (name ++ after)
  stop_valid := by
    rw [← String.utf8Len_append]
    exact isValid_append (before ++ name) after
  extract_eq := String.extract_of_valid before name after

/-- Behind any text, counting bytes finds the names of the literals. -/
theorem Lexed.sliced {piece : List Char} {tokens : List Token} (lexed : Lexed piece tokens)
    (before : List Char) :
    List.Forall₂ (fun t span => Slices (before ++ piece) span.1 span.2 t.name) tokens
      (spans (String.utf8Len before) tokens) := by
  induction lexed generalizing before with
  | nil => exact .nil
  | @cons t rest tokens begun ends others ih =>
      have whole : before ++ (t.text ++ rest) = before ++ t.text ++ rest :=
        (List.append_assoc _ _ _).symm
      have first : Slices (before ++ (t.text ++ rest)) (String.utf8Len before)
          (t.stop (String.utf8Len before)) t.name := by
        rw [stop_eq begun, text, List.append_assoc t.name, ← List.append_assoc before]
        exact slices_append before t.name _
      have mark : t.stop (String.utf8Len before) + (if t.complemented then 1 else 0) =
          String.utf8Len (before ++ t.text) := by
        rw [stop_eq begun, text, String.utf8Len_append, String.utf8Len_append, Nat.add_assoc]
        cases t.complemented <;> rfl
      refine .cons first ?_
      rw [mark, whole]
      exact ih (before ++ t.text)

end Token

/-! ## Meaning -/

/-- The bit of a variable among the function's, counted from the other end. -/
theorem Variable.toNat_bit {v : Variable} {n : Arity} (below : v.position.toNat < n.size) :
    (v.bit n.size).toNat = n.size - 1 - v.position.toNat := by
  have size := n.size_le
  rw [bit, UInt32.toNat_ofNat']
  omega

/-- A literal of a product: a variable, and whether it is to be set. -/
structure Literal where
  position : Nat
  positive : Bool
  deriving DecidableEq, Repr

/-- The literal that a token stands for among the variables of an arity. -/
structure Token.Denotes (n : Arity) (t : Token) (l : Literal) : Prop where
  names : Variable.Names t.name l.position
  below : l.position < n.size
  sign : l.positive = !t.complemented

namespace Token

variable {n : Arity} {t : Token} {l : Literal}

theorem resolve?_eq_some_iff {v : Variable} :
    t.resolve? n.size = some v ↔
      Variable.Names t.name v.position.toNat ∧ v.position.toNat < n.size := by
  rw [← Variable.ofName?_eq_some_iff]
  unfold resolve?
  constructor
  · intro named
    split at named
    · next w found =>
      split at named
      · next below =>
        obtain rfl := Option.some.inj named
        exact ⟨found, below⟩
      · cases named
    · cases named
  · rintro ⟨found, below⟩
    rw [found]
    exact if_pos below

theorem denotes_iff :
    t.Denotes n l ↔
      ∃ v, t.resolve? n.size = some v ∧ l = ⟨v.position.toNat, !t.complemented⟩ := by
  constructor
  · rintro ⟨names, below, sign⟩
    have size := n.size_le
    -- a position below the arity is a position of a variable
    have position : (UInt32.ofNat l.position).toNat = l.position := by
      rw [UInt32.toNat_ofNat']
      omega
    refine ⟨⟨UInt32.ofNat l.position⟩, resolve?_eq_some_iff.mpr ?_, ?_⟩
    · rw [position]
      exact ⟨names, below⟩
    · rw [position, ← sign]
  · rintro ⟨v, named, rfl⟩
    obtain ⟨names, below⟩ := resolve?_eq_some_iff.mp named
    exact ⟨names, below, rfl⟩

theorem resolve?_eq_none (unknown : ∀ l, ¬t.Denotes n l) : t.resolve? n.size = none := by
  cases named : t.resolve? n.size with
  | none => rfl
  | some v => exact absurd (denotes_iff.mpr ⟨v, named, rfl⟩) (unknown _)

end Token

end TwoLevel
