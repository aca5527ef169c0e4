/-
# TwoLevel.Proofs.Grammar — the texts that are expressions, and their values

`ReadsProduct` and `ReadsSum` are the grammar: what literals a piece of a text stands for, and
what products a text. `ProductFault` and `FirstFault` are what is wrong with the others: of the
first bad piece the first token that names no variable or one that is used already.

Reading agrees with both (`Expression.parse_exact`), by three facts about each level, literals,
products and sums: what the grammar reads is read, and has the value of its literals; a fault
is reported; and where there is no reading there is a fault. Conjoining carries the product of
the literals so far (`Product.Collects`), so that a prefix without fault can be passed over,
whatever follows (`Product.conjoin_append`).
-/
import TwoLevel.Guarded
import TwoLevel.Proofs.RoundTrip

namespace TwoLevel

set_option autoImplicit false

/-! ## The grammar -/

/-- Whether a literal is true on an assignment. -/
def Literal.Holds (n : Arity) (x : Word) (l : Literal) : Prop :=
  x.bit (n.size - 1 - l.position) = l.positive

/-- Tokens stand for literals, one each, on different variables. -/
structure Conjunction (n : Arity) (tokens : List Token) (literals : List Literal) : Prop where
  denotes : List.Forall₂ (Token.Denotes n) tokens literals
  once : (literals.map Literal.position).Nodup

/-- The literals that a trimmed piece of a text stands for. -/
inductive ReadsProduct (n : Arity) : List Char → List Literal → Prop
  | one : ReadsProduct n ['1'] []
  | literals {piece : List Char} {tokens : List Token} {literals : List Literal}
      (some : piece ≠ []) (lexed : Token.Lexed piece tokens)
      (conjunction : Conjunction n tokens literals) : ReadsProduct n piece literals

/-- The products that a text stands for, each with its literals. -/
inductive ReadsSum (n : Arity) : List Char → List (List Literal) → Prop
  | zero {text : List Char} (zero : Text.trim text = ['0']) : ReadsSum n text []
  | products {text : List Char} {sum : List (List Literal)} (other : Text.trim text ≠ ['0'])
      (pieces : List.Forall₂ (fun piece => ReadsProduct n (Text.trim piece))
        (Text.pieces '+' (Text.trim text)) sum) : ReadsSum n text sum

/-- What is wrong with a trimmed piece of a text: nothing is there, or its first token with a
fault names no variable, or one that a token before it names. -/
inductive ProductFault (n : Arity) : List Char → SyntaxError → Prop
  | empty : ProductFault n [] .emptyTerm
  | unknown {piece : List Char} {before after : List Token} {t : Token} {literals : List Literal}
      (other : piece ≠ ['1']) (lexed : Token.Lexed piece (before ++ t :: after))
      (conjunction : Conjunction n before literals) (unknown : ∀ l, ¬t.Denotes n l) :
      ProductFault n piece (.unknownVariable (String.ofList t.name) (String.ofList piece))
  | repeated {piece : List Char} {before after : List Token} {t : Token}
      {literals : List Literal} {l : Literal} (other : piece ≠ ['1'])
      (lexed : Token.Lexed piece (before ++ t :: after))
      (conjunction : Conjunction n before literals) (denotes : t.Denotes n l)
      (used : l.position ∈ literals.map Literal.position) :
      ProductFault n piece (.repeatedVariable (String.ofList t.name) (String.ofList piece))

/-- The pieces before a bad one, all of them products, the bad one and its fault. -/
inductive PieceFault (n : Arity) : List (List Char) → SyntaxError → Prop
  | intro {before after : List (List Char)} {bad : List Char} {cause : SyntaxError}
      (earlier : ∀ piece ∈ before, ∃ literals, ReadsProduct n (Text.trim piece) literals)
      (fault : ProductFault n (Text.trim bad) cause) : PieceFault n (before ++ bad :: after) cause

/-- What is wrong with a text. -/
structure FirstFault (n : Arity) (text : List Char) (cause : SyntaxError) : Prop where
  other : Text.trim text ≠ ['0']
  fault : PieceFault n (Text.pieces '+' (Text.trim text)) cause

/-! ## Literals -/

namespace Product

variable {n : Arity} {p : Product} {literals : List Literal} {l : Literal} {x : Word}

/-- A product of literals on different variables of an arity: it looks at their bits, and is
true where all of them are. -/
structure Collects (n : Arity) (p : Product) (literals : List Literal) : Prop where
  below : ∀ l ∈ literals, l.position < n.size
  care : ∀ i, p.care.bit i = true ↔ ∃ l ∈ literals, n.size - 1 - l.position = i
  value : ∀ i, p.care.bit i = false → p.value.bit i = false
  eval : ∀ x, p.eval x = true ↔ ∀ l ∈ literals, l.Holds n x

theorem collects_one : one.Collects n [] where
  below _ member := by cases member
  care i := by simp [one]
  value i _ := Word.bit_zero i
  eval x := by simp [eval, one]

theorem eval_withLiteral {k : Nat} {positive : Bool} (width : k < 64)
    (free : p.care.bit k = false) (clear : p.value.bit k = false) :
    (p.withLiteral (Word.single k) positive).eval x = true ↔
      p.eval x = true ∧ x.bit k = positive := by
  simp only [eval_iff_bit, care_withLiteral width, value_withLiteral width, Bool.or_eq_true,
    decide_eq_true_iff]
  constructor
  · intro agrees
    refine ⟨fun i looked => ?_, ?_⟩
    · have other : k ≠ i := by
        rintro rfl
        rw [free] at looked
        cases looked
      rw [agrees i (.inl looked), decide_eq_false other, Bool.and_false, Bool.or_false]
    · rw [agrees k (.inr rfl), clear, decide_eq_true rfl, Bool.and_true, Bool.false_or]
  · rintro ⟨agrees, here⟩ i looked
    by_cases same : k = i
    · subst same
      rw [here, clear, decide_eq_true rfl, Bool.and_true, Bool.false_or]
    · rw [agrees i (looked.resolve_right same), decide_eq_false same, Bool.and_false,
        Bool.or_false]

/-- The bit of a variable that no literal is on is free. -/
theorem Collects.free (collects : p.Collects n literals) (below : l.position < n.size)
    (fresh : l.position ∉ literals.map Literal.position) :
    p.care.bit (n.size - 1 - l.position) = false := by
  rw [Bool.eq_false_iff, Ne, collects.care]
  rintro ⟨other, member, same⟩
  have inRange := collects.below other member
  have equal : other.position = l.position := by omega
  exact fresh (equal ▸ List.mem_map_of_mem member)

/-- The bit of a variable that a literal is on is taken. -/
theorem Collects.taken (collects : p.Collects n literals)
    (used : l.position ∈ literals.map Literal.position) :
    p.care.bit (n.size - 1 - l.position) = true := by
  obtain ⟨other, member, same⟩ := List.mem_map.mp used
  exact (collects.care _).mpr ⟨other, member, by rw [same]⟩

theorem Collects.add (collects : p.Collects n literals) (below : l.position < n.size)
    (fresh : l.position ∉ literals.map Literal.position) :
    (p.withLiteral (Word.single (n.size - 1 - l.position)) l.positive).Collects n
      (literals ++ [l]) := by
  have size := n.size_le
  have width : n.size - 1 - l.position < 64 := by omega
  have free := collects.free below fresh
  refine ⟨?_, fun i => ?_, fun i clear => ?_, fun x => ?_⟩
  · intro m member
    rcases List.mem_append.mp member with earlier | last
    · exact collects.below m earlier
    · rwa [List.mem_singleton.mp last]
  · rw [care_withLiteral width, Bool.or_eq_true, decide_eq_true_iff, collects.care]
    simp [or_and_right, exists_or]
  · rw [care_withLiteral width, Bool.or_eq_false_iff] at clear
    obtain ⟨unlooked, other⟩ := clear
    rw [value_withLiteral width, collects.value i unlooked, other, Bool.and_false]
    rfl
  · rw [eval_withLiteral width free (collects.value _ free), collects.eval]
    simp [or_imp, forall_and, Literal.Holds]

/-! ## Products -/

section Conjoin

variable (term : List Char) {t : Token} {rest : List Token}

theorem conjoin_denotes (collects : p.Collects n literals) (denotes : t.Denotes n l)
    (fresh : l.position ∉ literals.map Literal.position) :
    conjoin term n.size p (t :: rest) = conjoin term n.size
      (p.withLiteral (Word.single (n.size - 1 - l.position)) l.positive) rest := by
  have size := n.size_le
  have below := denotes.below
  have free := collects.free below fresh
  obtain ⟨v, named, rfl⟩ := Token.denotes_iff.mp denotes
  exact conjoin_cons term named (Variable.toNat_bit below) (by omega) free

/-- Tokens in front that stand for literals are conjoined, whatever follows them. -/
theorem conjoin_append {tokens : List Token} {earlier : List Literal}
    (collects : p.Collects n earlier) (denotes : List.Forall₂ (Token.Denotes n) tokens literals)
    (once : ((earlier ++ literals).map Literal.position).Nodup) :
    ∃ q, q.Collects n (earlier ++ literals) ∧
      ∀ rest, conjoin term n.size p (tokens ++ rest) = conjoin term n.size q rest := by
  induction denotes generalizing p earlier with
  | nil =>
      refine ⟨p, ?_, fun rest => rfl⟩
      rwa [List.append_nil]
  | @cons t l tokens literals first others ih =>
      have fresh : l.position ∉ earlier.map Literal.position := by
        rw [List.map_append, List.map_cons] at once
        intro used
        exact (List.disjoint_of_nodup_append once) used List.mem_cons_self
      have split : earlier ++ l :: literals = earlier ++ [l] ++ literals := by simp
      rw [split] at once ⊢
      obtain ⟨q, all, read⟩ := ih (collects.add first.below fresh) once
      refine ⟨q, all, fun rest => ?_⟩
      rw [List.cons_append, conjoin_denotes term collects first fresh]
      exact read rest

theorem conjoin_conjunction {tokens : List Token} (conjunction : Conjunction n tokens literals) :
    ∃ q, q.Collects n literals ∧
      ∀ rest, conjoin term n.size one (tokens ++ rest) = conjoin term n.size q rest := by
  have start : (one).Collects n [] := collects_one
  exact conjoin_append term start conjunction.denotes conjunction.once

theorem conjoin_unknown (unknown : ∀ l, ¬t.Denotes n l) :
    conjoin term n.size p (t :: rest) =
      .error (.unknownVariable (String.ofList t.name) (String.ofList term)) := by
  rw [conjoin, Token.resolve?_eq_none unknown]

theorem conjoin_repeated (collects : p.Collects n literals) (denotes : t.Denotes n l)
    (used : l.position ∈ literals.map Literal.position) :
    conjoin term n.size p (t :: rest) =
      .error (.repeatedVariable (String.ofList t.name) (String.ofList term)) := by
  have size := n.size_le
  have below := denotes.below
  have taken := collects.taken used
  obtain ⟨v, named, rfl⟩ := Token.denotes_iff.mp denotes
  have width : n.size - 1 - v.position.toNat < 64 := by omega
  have occupied : p.care &&& Word.single (v.bit n.size).toNat ≠ 0 := by
    rw [Variable.toNat_bit below, Ne, Word.and_single_eq_zero_iff width, taken]
    decide
  rw [conjoin, named]
  exact if_pos occupied

end Conjoin

end Product

section Pieces

variable {n : Arity} {piece : List Char} {literals : List Literal} {cause : SyntaxError}

/-- Tokens stand for literals, or there is a first one at which this fails. -/
theorem conjunction_or_fault (n : Arity) (tokens : List Token) :
    (∃ literals, Conjunction n tokens literals) ∨
      ∃ before t after literals, tokens = before ++ t :: after ∧ Conjunction n before literals ∧
        ((∀ l, ¬t.Denotes n l) ∨
          ∃ l, t.Denotes n l ∧ l.position ∈ literals.map Literal.position) := by
  -- by the last token, so that what was found before it stays as it is
  induction tokens using List.reverseRecOn with
  | nil => exact .inl ⟨[], .nil, List.nodup_nil⟩
  | append_singleton tokens t ih =>
      rcases ih with ⟨literals, conjunction⟩ | ⟨before, s, after, literals, rfl, good, bad⟩
      · by_cases known : ∃ l, t.Denotes n l
        · obtain ⟨l, denotes⟩ := known
          by_cases used : l.position ∈ literals.map Literal.position
          · exact .inr ⟨tokens, t, [], literals, rfl, conjunction, .inr ⟨l, denotes, used⟩⟩
          · refine .inl ⟨literals ++ [l], ?_, ?_⟩
            · exact List.rel_append conjunction.denotes (.cons denotes .nil)
            · rw [List.map_append, List.nodup_append]
              refine ⟨conjunction.once, List.nodup_singleton _, fun i earlier j last => ?_⟩
              obtain rfl : j = l.position := by simpa using last
              rintro rfl
              exact used earlier
        · exact .inr ⟨tokens, t, [], literals, rfl, conjunction, .inl (not_exists.mp known)⟩
      · refine .inr ⟨before, s, after ++ [t], literals, ?_, good, bad⟩
        rw [List.append_assoc, List.cons_append]

/-- The empty product is not a sequence of literals. -/
theorem not_conjunction_one {tokens : List Token} (lexed : Token.Lexed ['1'] tokens) :
    ¬Conjunction n tokens literals := by
  rintro ⟨denotes, -⟩
  obtain rfl := Token.lexed_iff.mp lexed
  cases denotes with
  | cons first _ =>
      have names := first.names
      revert names
      generalize Literal.position _ = position
      intro names
      cases names with
      | letter upper => cases upper

theorem Product.parse_of_reads (reads : ReadsProduct n piece literals) :
    ∃ p, Product.parse piece n.size = .ok p ∧
      ∀ x, p.eval x = true ↔ ∀ l ∈ literals, l.Holds n x := by
  cases reads with
  | one => exact ⟨.one, if_pos rfl, Product.collects_one.eval⟩
  | literals some lexed conjunction =>
      have other : piece ≠ ['1'] := by
        rintro rfl
        exact not_conjunction_one lexed conjunction
      obtain ⟨p, collects, read⟩ := Product.conjoin_conjunction piece conjunction
      have whole := read []
      rw [List.append_nil] at whole
      refine ⟨p, ?_, collects.eval⟩
      rw [Product.parse, if_neg other, if_neg some, Token.lexed_iff.mp lexed, whole]
      rfl

theorem Token.Lexed.ne_nil {tokens : List Token} (lexed : Token.Lexed piece tokens)
    (some : tokens ≠ []) : piece ≠ [] := by
  rintro rfl
  exact some (Token.lexed_iff.mp lexed).symm

theorem Product.parse_of_fault (fault : ProductFault n piece cause) :
    Product.parse piece n.size = .error cause := by
  cases fault with
  | empty => rfl
  | unknown other lexed conjunction unknown =>
      obtain ⟨p, -, read⟩ := Product.conjoin_conjunction piece conjunction
      have some := lexed.ne_nil (by simp)
      rw [Product.parse, if_neg other, if_neg some, Token.lexed_iff.mp lexed, read]
      exact Product.conjoin_unknown piece unknown
  | repeated other lexed conjunction denotes used =>
      obtain ⟨p, collects, read⟩ := Product.conjoin_conjunction piece conjunction
      have some := lexed.ne_nil (by simp)
      rw [Product.parse, if_neg other, if_neg some, Token.lexed_iff.mp lexed, read]
      exact Product.conjoin_repeated piece collects denotes used

theorem product_or_fault (n : Arity) (piece : List Char) :
    (∃ literals, ReadsProduct n piece literals) ∨ ∃ cause, ProductFault n piece cause := by
  by_cases one : piece = ['1']
  · exact .inl ⟨[], one ▸ .one⟩
  by_cases none : piece = []
  · exact .inr ⟨.emptyTerm, none ▸ .empty⟩
  have lexed : Token.Lexed piece (Token.scan piece) := Token.lexed_iff.mpr rfl
  rcases conjunction_or_fault n (Token.scan piece) with
    ⟨literals, conjunction⟩ | ⟨before, t, after, literals, split, conjunction, bad⟩
  · exact .inl ⟨literals, .literals none lexed conjunction⟩
  · rw [split] at lexed
    rcases bad with unknown | ⟨l, denotes, used⟩
    · exact .inr ⟨_, .unknown one lexed conjunction unknown⟩
    · exact .inr ⟨_, .repeated one lexed conjunction denotes used⟩

/-! ## Sums -/

variable {pieces : List (List Char)} {sum : List (List Literal)}

theorem Product.parseAll_of_reads
    (reads : List.Forall₂ (fun piece => ReadsProduct n (Text.trim piece)) pieces sum) :
    ∃ terms, Product.parseAll n.size pieces = .ok terms ∧
      ∀ x, terms.any (·.eval x) = true ↔ ∃ literals ∈ sum, ∀ l ∈ literals, l.Holds n x := by
  induction reads with
  | nil => exact ⟨[], rfl, by simp⟩
  | cons first _ ih =>
      obtain ⟨p, read, value⟩ := Product.parse_of_reads first
      obtain ⟨terms, others, values⟩ := ih
      refine ⟨p :: terms, ?_, fun x => ?_⟩
      · simp only [Product.parseAll, read, others]
      · rw [List.any_cons, Bool.or_eq_true, value, values]
        simp only [List.mem_cons, exists_eq_or_imp]

theorem Product.parseAll_of_fault (fault : PieceFault n pieces cause) :
    Product.parseAll n.size pieces = .error cause := by
  obtain ⟨earlier, fault⟩ := fault
  rename_i before after bad
  induction before with
  | nil => simp only [List.nil_append, Product.parseAll, Product.parse_of_fault fault]
  | cons piece before ih =>
      obtain ⟨⟨literals, first⟩, others⟩ := List.forall_mem_cons.mp earlier
      obtain ⟨p, read, -⟩ := Product.parse_of_reads first
      simp only [List.cons_append, Product.parseAll, read, ih others]

theorem sum_or_fault (n : Arity) (pieces : List (List Char)) :
    (∃ sum, List.Forall₂ (fun piece => ReadsProduct n (Text.trim piece)) pieces sum) ∨
      ∃ cause, PieceFault n pieces cause := by
  induction pieces with
  | nil => exact .inl ⟨[], .nil⟩
  | cons piece pieces ih =>
      rcases product_or_fault n (Text.trim piece) with ⟨literals, first⟩ | ⟨cause, fault⟩
      · rcases ih with ⟨sum, others⟩ | ⟨cause, ⟨earlier, fault⟩⟩
        · exact .inl ⟨literals :: sum, .cons first others⟩
        · have good := List.forall_mem_cons.mpr ⟨⟨literals, first⟩, earlier⟩
          exact .inr ⟨cause, .intro good fault⟩
      · have none : ∀ piece ∈ ([] : List (List Char)),
            ∃ literals, ReadsProduct n (Text.trim piece) literals := by simp
        exact .inr ⟨cause, .intro none fault⟩

end Pieces

namespace Expression

variable {n : Arity} {text : List Char} {sum : List (List Literal)} {cause : SyntaxError}

theorem parseChars_of_reads (reads : ReadsSum n text sum) :
    ∃ e, parseChars text n.size = .ok e ∧
      ∀ x, e.eval x = true ↔ ∃ literals ∈ sum, ∀ l ∈ literals, l.Holds n x := by
  cases reads with
  | zero zero => exact ⟨⟨[]⟩, if_pos zero, fun x => by simp [eval]⟩
  | products other pieces =>
      obtain ⟨terms, read, value⟩ := Product.parseAll_of_reads pieces
      refine ⟨⟨terms⟩, ?_, value⟩
      simp only [parseChars, if_neg other, read]

theorem parseChars_of_fault (fault : FirstFault n text cause) :
    parseChars text n.size = .error cause := by
  simp only [parseChars, if_neg fault.other, Product.parseAll_of_fault fault.fault]

theorem reads_or_fault (n : Arity) (text : List Char) :
    (∃ sum, ReadsSum n text sum) ∨ ∃ cause, FirstFault n text cause := by
  by_cases zero : Text.trim text = ['0']
  · exact .inl ⟨[], .zero zero⟩
  · rcases sum_or_fault n (Text.pieces '+' (Text.trim text)) with ⟨sum, pieces⟩ | ⟨cause, fault⟩
    · exact .inl ⟨sum, .products zero pieces⟩
    · exact .inr ⟨cause, zero, fault⟩

theorem parseChars_eq_ok_iff :
    (∃ e, parseChars text n.size = .ok e) ↔ ∃ sum, ReadsSum n text sum := by
  constructor
  · rintro ⟨e, read⟩
    refine (reads_or_fault n text).resolve_right ?_
    rintro ⟨cause, fault⟩
    cases read.symm.trans (parseChars_of_fault fault)
  · rintro ⟨sum, reads⟩
    obtain ⟨e, read, -⟩ := parseChars_of_reads reads
    exact ⟨e, read⟩

theorem parseChars_eq_error_iff :
    parseChars text n.size = .error cause ↔ FirstFault n text cause := by
  constructor
  · intro refused
    rcases reads_or_fault n text with ⟨sum, reads⟩ | ⟨other, fault⟩
    · obtain ⟨e, read, -⟩ := parseChars_of_reads reads
      cases read.symm.trans refused
    · have same := (parseChars_of_fault fault).symm.trans refused
      cases same
      exact fault
  · exact parseChars_of_fault

end Expression

/-! ## The reader's own assumptions -/

/-- What a reader of a piece takes for granted, who slices names out of its bytes, and asks for
the bit of a variable to shift by it. -/
structure ReaderFits (n : Arity) (piece : List Char) : Prop where
  /-- Counting bytes finds every name, between boundaries of characters. -/
  sliced : List.Forall₂ (fun t span => Token.Slices piece span.1 span.2 t.name)
    (Token.scan piece) (Token.spans 0 (Token.scan piece))
  /-- Every variable that is named has a bit, which is one of a word. -/
  owned : ∀ t ∈ Token.scan piece, ∀ v, t.resolve? n.size = some v →
    Guarded.bitOfVariable v n.size = .ok (v.bit n.size) ∧ (v.bit n.size).toNat < 64

theorem readerFits (n : Arity) (piece : List Char) : ReaderFits n piece where
  sliced := Token.Lexed.sliced (Token.lexed_iff.mpr rfl) []
  owned t _ v named := by
    have size := n.size_le
    obtain ⟨-, below⟩ := Token.resolve?_eq_some_iff.mp named
    refine ⟨if_pos below, ?_⟩
    rw [Variable.toNat_bit below]
    omega

/-- **Grammar.** A text is read exactly if the grammar reads it; it is then true where all the
literals of one of its products are. A text that is not read is refused for its first fault,
in these words. Reading breaks no assumption of its own. -/
theorem Expression.parse_exact (text : String) (n : Arity) :
    ((∃ e, parse text n.size = .ok e) ↔ ∃ sum, ReadsSum n text.toList sum) ∧
    (∀ e sum, parse text n.size = .ok e → ReadsSum n text.toList sum → ∀ x : Word,
      e.eval x = true ↔ ∃ literals ∈ sum, ∀ l ∈ literals, l.Holds n x) ∧
    (∀ cause, parse text n.size = .error cause ↔ FirstFault n text.toList cause) ∧
    (∀ name term : String,
      SyntaxError.emptyTerm.message = "empty term" ∧
      (SyntaxError.unknownVariable name term).message =
        s!"unknown variable '{name}' in '{term}'" ∧
      (SyntaxError.repeatedVariable name term).message =
        s!"variable '{name}' repeated in '{term}'") ∧
    ∀ piece ∈ Text.pieces '+' (Text.trim text.toList), ReaderFits n (Text.trim piece) := by
  refine ⟨parseChars_eq_ok_iff, fun e sum read reads => ?_, fun cause => parseChars_eq_error_iff,
    fun name term => ⟨rfl, rfl, rfl⟩, fun piece _ => readerFits n _⟩
  obtain ⟨e', same, value⟩ := parseChars_of_reads reads
  obtain rfl : e' = e := Except.ok.inj (same.symm.trans read)
  exact value

/-- Twenty-seven variables, the last of them named with a zero in front: the text is read, and
its first product is true where only that variable is set. Of three variables the first faulty
piece is reported, for a character of two bytes and for a variable with both signs. -/
theorem Expression.parse_exact_mixed :
    (∃ e sum, parse "\t x026A' +BC" 27 = .ok e ∧
      ReadsSum ⟨27, by decide⟩ "\t x026A' +BC".toList sum ∧
      e.eval 1 = true ∧ ∃ literals ∈ sum, ∀ l ∈ literals, l.Holds ⟨27, by decide⟩ 1) ∧
    FirstFault ⟨3, by decide⟩ "A+\u00e9'B + BB'".toList (.unknownVariable "\u00e9" "\u00e9'B") ∧
    FirstFault ⟨3, by decide⟩ "A + BCB' + ".toList (.repeatedVariable "B" "BCB'") := by
  refine ⟨?_, ?_, ?_⟩
  · obtain ⟨e, read, holds⟩ : ∃ e, parse "\t x026A' +BC" 27 = .ok e ∧ e.eval 1 = true :=
      ⟨_, rfl, rfl⟩
    obtain ⟨accepted, meaning, -⟩ := parse_exact "\t x026A' +BC" ⟨27, by decide⟩
    obtain ⟨sum, reads⟩ := accepted.mp ⟨e, read⟩
    exact ⟨e, sum, read, reads, holds, (meaning e sum read reads 1).mp holds⟩
  · exact ((parse_exact "A+\u00e9'B + BB'" ⟨3, by decide⟩).2.2.1 _).mp rfl
  · exact ((parse_exact "A + BCB' + " ⟨3, by decide⟩).2.2.1 _).mp rfl

end TwoLevel
