/-
# TwoLevel.Proofs.ChartReading — the chart as a reader sees it

The chart is read back from its text. Below its title stands a line of numbers, the minterms;
`isChartRow` tells the rows of the prime implicants from the lines that may follow them. What a
row says of a minterm stands in the column where the number of that minterm ends. That this
works out whatever the numbers' widths is shown once, for the part that the header and the rows
have in common (`forall₂_scan_minterms`): its start is the only column that has to agree.

What the rows then say is about the implicants alone. Those with a tag are a cover of the
function (`ListsPrimes.exists_tagged`), and the essential ones are told from the others by a
minterm that only their row marks (`ListsPrimes.tag_eq_iff`), for a count over all rows is a
count over all prime implicants.
-/
import Mathlib.Data.List.Forall2
import TwoLevel.Proofs.Consistency
import TwoLevel.Proofs.Lines
import TwoLevel.Proofs.Partition
import TwoLevel.Trace.Chart

namespace TwoLevel

set_option autoImplicit false

/-- Entries that correspond come in pairs. -/
theorem exists_mem_of_forall₂ {α β : Type} {R : α → β → Prop} {xs : List α} {ys : List β}
    (all : List.Forall₂ R xs ys) : ∀ x ∈ xs, ∃ y ∈ ys, R x y := by
  induction all with
  | nil => exact fun x member => absurd member List.not_mem_nil
  | cons first rest ih =>
      rw [List.forall_mem_cons]
      refine ⟨⟨_, List.mem_cons_self, first⟩, fun x member => ?_⟩
      obtain ⟨y, listed, related⟩ := ih x member
      exact ⟨y, List.mem_cons_of_mem _ listed, related⟩

theorem Implicant.length_patternBelow (a : Implicant) (k : Nat) :
    (a.patternBelow k).length = k := by
  induction k with
  | zero => rfl
  | succ k ih => rw [patternBelow, List.length_cons, ih]

theorem Implicant.newline_not_mem_patternBelow (a : Implicant) (k : Nat) :
    '\n' ∉ a.patternBelow k := by
  induction k with
  | zero => exact List.not_mem_nil
  | succ k ih =>
      rw [patternBelow, List.mem_cons, not_or]
      refine ⟨?_, ih⟩
      split
      · decide
      · split <;> decide

theorem Implicant.newline_not_mem_term (a : Implicant) (count : Nat) : '\n' ∉ a.term count := by
  intro member
  have blank : Text.isBlank '\n' = false := (plain_of_mem_term member).1
  revert blank
  decide

/-- The mark of an implicant for a minterm. -/
def Implicant.mark (a : Implicant) (m : Word) : Char := if a.covers m then 'x' else '.'

theorem Implicant.mark_eq_iff {a : Implicant} {m : Word} : a.mark m = 'x' ↔ a.covers m = true := by
  rw [mark]
  split
  · rename_i covers
    exact iff_of_true rfl covers
  · rename_i missed
    exact iff_of_false (by decide) missed

/-- The rows of the chart begin with two spaces and a tag. -/
def isChartRow : List Char → Bool
  | ' ' :: ' ' :: tag :: _ => ['*', '+', ' '].contains tag
  | _ => false

/-! ## Columns -/

/-- A mark is as wide as its minterm. -/
theorem Trace.length_markText (a : Implicant) (m : Word) :
    (markText a m).length = (mintermText m).length := by
  have positive : 0 < (mintermText m).length := List.length_pos_iff.mpr Nat.toDigits_ne_nil
  rw [markText, List.length_append, List.length_replicate, List.length_singleton]
  omega

/-- The mark is the last character of its column. -/
theorem Trace.getElem?_markText (a : Implicant) (m : Word) (before after : List Char) :
    (before ++ (' ' :: markText a m ++ after))[before.length + (mintermText m).length]? =
      some (a.mark m) := by
  have width : (' ' :: List.replicate ((mintermText m).length - 1) ' ').length =
      (mintermText m).length := by
    have same := length_markText a m
    rwa [markText, List.length_append] at same
  have last : (' ' :: markText a m)[(mintermText m).length]? = some (a.mark m) := by
    calc (' ' :: markText a m)[(mintermText m).length]?
        = (' ' :: List.replicate ((mintermText m).length - 1) ' ' ++ [a.mark m])[
            (' ' :: List.replicate ((mintermText m).length - 1) ' ').length]? := by
          rw [width]
          rfl
      _ = some (a.mark m) := List.getElem?_concat_length
  have inside : (mintermText m).length < (' ' :: markText a m).length := by
    rw [List.length_cons, length_markText]
    exact Nat.lt_succ_self _
  rw [List.getElem?_append_right (Nat.le_add_right _ _), Nat.add_sub_cancel_left,
    List.getElem?_append_left inside, last]

/-- A row that begins where the header does has its marks where the header's numbers end. -/
theorem forall₂_scan_minterms (minterms : List Word) (start : Nat) :
    List.Forall₂
      (fun column m => column.value = m.toNat ∧ ∀ (a : Implicant) (before after : List Char),
        before.length = start →
          (before ++ ((minterms.flatMap fun m => ' ' :: Trace.markText a m) ++
            after))[column.column]? = some (a.mark m))
      (Numeral.scan start none (minterms.flatMap fun m => ' ' :: Trace.mintermText m))
      minterms := by
  induction minterms generalizing start with
  | nil => exact .nil
  | cons m rest ih =>
      have apart : ∀ c ∈ (rest.flatMap fun m => ' ' :: Trace.mintermText m).head?,
          c.isDigit = false := by
        cases rest <;> simp
      rw [List.flatMap_cons, List.cons_append, Trace.mintermText,
        Numeral.scan_numeral m.toNat (by decide) apart]
      refine .cons ⟨rfl, fun a before after begins => ?_⟩
        ((ih _).imp fun column m' both => ⟨both.1, fun a before after begins => ?_⟩)
      · rw [List.flatMap_cons, List.append_assoc, ← begins]
        exact Trace.getElem?_markText a m before _
      · -- for the other minterms this one's column is part of what precedes
        have longer : (before ++ ' ' :: Trace.markText a m).length =
            start + 1 + (Trace.mintermText m).length := by
          rw [List.length_append, List.length_cons, Trace.length_markText, begins]
          omega
        have later := both.2 a (before ++ ' ' :: Trace.markText a m) after longer
        rwa [List.append_assoc, ← List.append_assoc (' ' :: Trace.markText a m)] at later

namespace Trace

variable {t : Trace} {tag : Char} {a : Implicant} {line : List Char}

/-- The numbers of the header are the minterms, and in every row the marks stand below them. -/
theorem forall₂_numerals_mintermLine (t : Trace) :
    List.Forall₂
      (fun column m => column.value = m.toNat ∧
        ∀ tag a, (t.implicantLine tag a)[column.column]? = some (a.mark m))
      (Text.numerals t.mintermLine) t.minterms := by
  have blank : ∀ c ∈ List.replicate 4 ' ' ++ List.replicate t.arity.size ' ' ++ [' '],
      c.isDigit = false := by
    simp +contextual [or_imp]
  have begins :
      0 + (List.replicate 4 ' ' ++ List.replicate t.arity.size ' ' ++ [' ']).length =
        t.arity.size + 5 := by
    simp only [List.length_append, List.length_replicate, List.length_singleton]
    omega
  rw [Text.numerals, mintermLine, Numeral.scan_append blank, begins]
  refine (forall₂_scan_minterms t.minterms _).imp fun column m both => ⟨both.1, fun tag a => ?_⟩
  have front : ([' ', ' ', tag, ' '] ++ a.patternBelow t.arity.size ++ [' ']).length =
      t.arity.size + 5 := by
    simp [a.length_patternBelow]
  have row := both.2 a _ ([' ', ' '] ++ a.term t.arity.size) front
  rwa [← List.append_assoc, ← List.append_assoc] at row

/-! ## Lines -/

theorem newline_not_mem_implicantLine (apart : tag ≠ '\n') :
    '\n' ∉ t.implicantLine tag a := by
  have marks : '\n' ∉ t.minterms.flatMap fun m => ' ' :: markText a m := by
    rw [List.mem_flatMap]
    rintro ⟨m, -, member⟩
    rw [markText] at member
    split at member <;> simp at member
  simp [implicantLine, a.newline_not_mem_patternBelow, a.newline_not_mem_term, marks, apart.symm]

/-- A line beside the rows of the chart: one line, no row, and nothing that begins with a `v`. -/
structure Aside (line : List Char) : Prop where
  oneLine : '\n' ∉ line
  notRow : isChartRow line = false
  head : line.head? ≠ some 'v'

theorem aside_combinationLine (combination : IndexSet) (cost : Cost) :
    Aside (combinationLine combination cost) := by
  rw [combinationLine]
  simp only [String.toList_append, Text.toList_bracketed_nat]
  refine ⟨?_, rfl, by rintro ⟨⟩⟩
  simp [Text.newline_not_mem_decimals, Cost.text]
  decide

theorem aside_coveringLines (t : Trace) : ∀ line ∈ t.coveringLines, Aside line := by
  rw [coveringLines]
  split
  · exact List.forall_mem_nil _
  · rw [List.forall_mem_append, List.forall_mem_append, List.forall_mem_cons,
      List.forall_mem_singleton]
    refine ⟨⟨⟨?_, ?_⟩, ?_⟩, ?_⟩
    · rw [String.toList_append, Text.toList_bracketed_word]
      refine ⟨?_, rfl, by rintro ⟨⟩⟩
      simp [Text.newline_not_mem_decimals]
    · simp only [String.toList_append, Text.toList_bracketed_nat]
      cases t.greedy
      all_goals
        refine ⟨?_, rfl, by rintro ⟨⟩⟩
        simp [Text.newline_not_mem_decimals]
        decide
    · intro line listed
      obtain ⟨entry, -, rfl⟩ := List.mem_map.mp listed
      exact aside_combinationLine _ _
    · split
      · rw [List.forall_mem_singleton, String.toList_append, String.toList_append]
        refine ⟨?_, rfl, by rintro ⟨⟩⟩
        simp
        decide
      · exact List.forall_mem_nil _

theorem newline_not_mem_titleLine (t : Trace) : '\n' ∉ t.titleLine := by
  rw [titleLine]
  simp only [String.toList_append]
  simp
  decide

theorem newline_not_mem_mintermLine (t : Trace) : '\n' ∉ t.mintermLine := by
  simp [mintermLine, mintermText]

/-- The implicants of the chart in its order, each with the tag of its row. -/
def tagged (t : Trace) : List (Char × Implicant) :=
  t.essential.map (fun a => ('*', a)) ++
    t.candidates.zipIdx.map fun (a, i) => (if t.chosen.contains i then '+' else ' ', a)

theorem implicantLines_eq (t : Trace) :
    t.implicantLines = t.tagged.map fun entry => t.implicantLine entry.1 entry.2 := by
  rw [tagged, List.map_append, List.map_map, List.map_map]
  rfl

theorem map_snd_tagged (t : Trace) : t.tagged.map Prod.snd = t.essential ++ t.candidates := by
  rw [tagged, List.map_append, List.map_map, List.map_map]
  exact congrArg₂ (· ++ ·) (List.map_id _) (List.zipIdx_map_fst 0 _)

theorem mem_tagged :
    (tag, a) ∈ t.tagged ↔ (tag = '*' ∧ a ∈ t.essential) ∨
      ∃ i, t.candidates[i]? = some a ∧ tag = if t.chosen.contains i then '+' else ' ' := by
  rw [tagged, List.mem_append, List.mem_map, List.mem_map]
  refine or_congr ?_ ?_
  · constructor
    · rintro ⟨b, essential, same⟩
      obtain ⟨rfl, rfl⟩ := Prod.mk.inj same
      exact ⟨rfl, essential⟩
    · rintro ⟨rfl, essential⟩
      exact ⟨a, essential, rfl⟩
  · constructor
    · rintro ⟨⟨b, i⟩, listed, same⟩
      obtain ⟨rfl, rfl⟩ := Prod.mk.inj same
      exact ⟨i, List.mem_zipIdx_iff_getElem?.mp listed, rfl⟩
    · rintro ⟨i, found, rfl⟩
      exact ⟨(a, i), List.mem_zipIdx_iff_getElem?.mpr found, rfl⟩

theorem tag_mem (listed : (tag, a) ∈ t.tagged) : tag ∈ ['*', '+', ' '] := by
  rcases mem_tagged.mp listed with ⟨rfl, -⟩ | ⟨i, -, rfl⟩
  · decide
  · split <;> decide

/-- No line of the chart holds a line feed, or begins with a `v`. -/
theorem forall_mem_chartLines (t : Trace) :
    ∀ line ∈ t.chartLines, '\n' ∉ line ∧ line.head? ≠ some 'v' := by
  rw [chartLines, List.forall_mem_cons, List.forall_mem_cons, List.forall_mem_append]
  refine ⟨⟨newline_not_mem_titleLine t, ?_⟩, ⟨newline_not_mem_mintermLine t, by rintro ⟨⟩⟩,
    fun line listed => ?_, fun line listed => ?_⟩
  · rw [titleLine]
    simp only [String.toList_append]
    rintro ⟨⟩
  · rw [implicantLines_eq] at listed
    obtain ⟨⟨tag, a⟩, member, rfl⟩ := List.mem_map.mp listed
    refine ⟨newline_not_mem_implicantLine ?_, by rintro ⟨⟩⟩
    rintro rfl
    exact absurd (tag_mem member) (by decide)
  · have aside := aside_coveringLines t line listed
    exact ⟨aside.oneLine, aside.head⟩

/-- The lines of the chart are read back. -/
theorem lines_chart (t : Trace) : Text.lines t.chart.toList = t.chartLines := by
  rw [chart, String.toList_ofList]
  exact Text.lines_flatMap fun line listed => (t.forall_mem_chartLines line listed).1

end Trace

/-! ## What the rows say -/

/-- A row of the chart of a trace that shows an implicant, with its tag and, below every number
of the header, its mark. -/
structure Trace.RowShows (t : Trace) (columns : List Numeral) (row : List Char) (tag : Char)
    (a : Implicant) : Prop where
  tagged : row[2]? = some tag
  pattern : (row.drop 4).take t.arity.size = a.patternBelow t.arity.size
  marks : List.Forall₂ (fun column m => row[column.column]? = some (a.mark m)) columns t.minterms

/-- The numbers of the header and the rows below it say what a trace holds, and only this. -/
structure Trace.ChartShows (t : Trace) (columns : List Numeral) (rows : List (List Char)) :
    Prop where
  minterms : columns.map Numeral.value = t.minterms.map (·.toNat)
  /-- Every prime implicant has one row, the essential ones first. -/
  once : (t.essential ++ t.candidates).Perm t.primes
  shown : List.Forall₂ (fun row entry => t.RowShows columns row entry.1 entry.2) rows t.tagged
  /-- The tagged rows make a cover. -/
  covered : ∀ column ∈ columns, ∃ row ∈ rows,
    (row[2]? = some '*' ∨ row[2]? = some '+') ∧ row[column.column]? = some 'x'
  /-- An essential implicant is the only one to be marked in some column. -/
  essential : ∀ (i : Nat) (row : List Char), rows[i]? = some row → (row[2]? = some '*' ↔
    ∃ column ∈ columns, ∀ (j : Nat) (other : List Char), rows[j]? = some other →
      (other[column.column]? = some 'x' ↔ j = i))

namespace Trace

/-- What the lines of a chart show, they show in the columns of its header. -/
theorem rowShows_implicantLine (t : Trace) (tag : Char) (a : Implicant) :
    t.RowShows (Text.numerals t.mintermLine) (t.implicantLine tag a) tag a where
  tagged := rfl
  pattern := by
    show (a.patternBelow t.arity.size ++ [' '] ++ _ ++ _ ++ _).take t.arity.size = _
    rw [List.append_assoc, List.append_assoc, List.append_assoc,
      List.take_left' (a.length_patternBelow _)]
  marks := t.forall₂_numerals_mintermLine.imp fun column m both => both.2 tag a

/-- What is true of the implicants and their tags can be read off the chart. -/
theorem chartShows (t : Trace) (once : (t.essential ++ t.candidates).Perm t.primes)
    (covered : ∀ m ∈ t.minterms, ∃ tag a, (tag, a) ∈ t.tagged ∧ (tag = '*' ∨ tag = '+') ∧
      a.covers m = true)
    (essential : ∀ i tag a, t.tagged[i]? = some (tag, a) → (tag = '*' ↔
      ∃ m ∈ t.minterms, ∀ (j : Nat) entry, t.tagged[j]? = some entry →
        (entry.2.covers m = true ↔ j = i))) :
    t.ChartShows (Text.numerals t.mintermLine)
      (t.tagged.map fun entry => t.implicantLine entry.1 entry.2) := by
  have columns := t.forall₂_numerals_mintermLine
  -- in the column of a minterm the rows are marked that cover it
  have marked {column : Numeral} {m : Word} {tag : Char} {a : Implicant}
      (below : ∀ tag a, (t.implicantLine tag a)[column.column]? = some (a.mark m)) :
      (t.implicantLine tag a)[column.column]? = some 'x' ↔ a.covers m = true := by
    rw [below, Option.some.injEq, Implicant.mark_eq_iff]
  refine
    { minterms := ?_
      once := once
      shown := ?_
      covered := fun column listed => ?_
      essential := fun i row here => ?_ }
  · rw [← List.forall₂_eq_eq_eq, List.forall₂_map_left_iff, List.forall₂_map_right_iff]
    exact columns.imp fun column m both => both.1
  · rw [List.forall₂_map_left_iff, List.forall₂_same]
    exact fun entry _ => t.rowShows_implicantLine entry.1 entry.2
  · obtain ⟨m, member, -, below⟩ := exists_mem_of_forall₂ columns column listed
    obtain ⟨tag, a, inChart, shown, covers⟩ := covered m member
    refine ⟨_, List.mem_map_of_mem inChart, ?_, (marked below).mpr covers⟩
    exact shown.imp (congrArg some) (congrArg some)
  · rw [List.getElem?_map, Option.map_eq_some_iff] at here
    obtain ⟨⟨tag, a⟩, here, rfl⟩ := here
    have tagged : (t.implicantLine tag a)[2]? = some '*' ↔ tag = '*' := Option.some_inj
    rw [tagged, essential i tag a here]
    simp only [List.getElem?_map, Option.map_eq_some_iff]
    constructor
    · rintro ⟨m, member, only⟩
      obtain ⟨column, listed, -, below⟩ := exists_mem_of_forall₂ columns.flip m member
      refine ⟨column, listed, ?_⟩
      rintro j _ ⟨entry, there, rfl⟩
      rw [marked below]
      exact only j entry there
    · rintro ⟨column, listed, only⟩
      obtain ⟨m, member, -, below⟩ := exists_mem_of_forall₂ columns column listed
      refine ⟨m, member, fun j entry there => ?_⟩
      rw [← marked below]
      exact only j _ ⟨entry, there, rfl⟩

end Trace

/-! ## The implicants and their tags -/

section Tags

variable {n : Arity} {minterms : List Word} {choice : Choice} {tag : Char} {a : Implicant}

/-- The two sides of a selection hold every prime implicant once. -/
theorem ListsPrimes.perm {primes : List Implicant} (known : ListsPrimes minterms primes) :
    ((select primes minterms).essential ++ (select primes minterms).candidates).Perm primes := by
  have distinct : ((select primes minterms).essential ++
      (select primes minterms).candidates).Nodup := by
    refine List.nodup_append'.mpr ⟨?_, known.candidates_nodup, select_disjoint⟩
    rw [select_essential]
    exact distinct_nodup _
  refine (List.perm_ext_iff_of_nodup distinct known.once).mpr fun a => ?_
  rw [List.mem_append]
  exact (mem_select known.cubes).symm

/-- Every minterm is covered by an implicant that is essential or chosen. -/
theorem ListsPrimes.exists_tagged (known : ListsPrimes minterms (generate n minterms).primes)
    (complete : (select (generate n minterms).primes minterms).Completes choice.chosen) {m : Word}
    (listed : m ∈ minterms) :
    ∃ tag a, (tag, a) ∈ (Trace.ofChoice n minterms choice).tagged ∧ (tag = '*' ∨ tag = '+') ∧
      a.covers m = true := by
  obtain ⟨a, member, covers⟩ := (known.mem_iff_exists_cover complete).mp listed
  rcases List.mem_append.mp member with essential | picked
  · exact ⟨'*', a, Trace.mem_tagged.mpr (.inl ⟨rfl, essential⟩), .inl rfl, covers⟩
  · obtain ⟨i, chosen, found⟩ := IndexSet.mem_pick.mp picked
    refine ⟨'+', a, Trace.mem_tagged.mpr (.inr ⟨i, found, ?_⟩), .inr rfl, covers⟩
    exact (if_pos (IndexSet.mem_members.mp chosen)).symm

theorem tag_eq_iff_mem_essential
    (listed : (tag, a) ∈ (Trace.ofChoice n minterms choice).tagged) :
    tag = '*' ↔ a ∈ (select (generate n minterms).primes minterms).essential := by
  rcases Trace.mem_tagged.mp listed with ⟨rfl, essential⟩ | ⟨i, found, rfl⟩
  · exact iff_of_true rfl essential
  · refine iff_of_false (by split <;> decide) fun essential => ?_
    exact select_disjoint essential (List.mem_of_getElem? found)

/-- The implicants tagged as essential are those that alone cover some minterm. -/
theorem ListsPrimes.tag_eq_iff (known : ListsPrimes minterms (generate n minterms).primes)
    {i : Nat} (here : (Trace.ofChoice n minterms choice).tagged[i]? = some (tag, a)) :
    tag = '*' ↔ ∃ m ∈ minterms, ∀ (j : Nat) entry,
      (Trace.ofChoice n minterms choice).tagged[j]? = some entry →
        (entry.2.covers m = true ↔ j = i) := by
  have rows : ((Trace.ofChoice n minterms choice).tagged.map Prod.snd).Perm
      (generate n minterms).primes := by
    rw [Trace.map_snd_tagged]
    exact known.perm
  -- a minterm is covered once if it is covered in one row
  have once {m : Word} (covers : a.covers m = true) :
      coverage (generate n minterms).primes m = 1 ↔ ∀ (j : Nat) entry,
        (Trace.ofChoice n minterms choice).tagged[j]? = some entry →
          entry.2.covers m = true → j = i := by
    rw [coverage, ← rows.countP_eq, List.countP_map]
    exact countP_eq_one_iff here covers
  have listed := List.mem_of_getElem? here
  have member : a ∈ (generate n minterms).primes :=
    rows.subset (List.mem_map_of_mem (f := Prod.snd) listed)
  rw [tag_eq_iff_mem_essential listed, mem_select_essential known.cubes, and_iff_right member,
    isEssential_iff]
  constructor
  · rintro ⟨m, covers, alone⟩
    refine ⟨m, known.sound member covers, fun j entry there => ?_⟩
    refine ⟨(once covers).mp alone j entry there, ?_⟩
    rintro rfl
    obtain rfl := Option.some.inj (here.symm.trans there)
    exact covers
  · rintro ⟨m, -, only⟩
    have covers : a.covers m = true := (only i _ here).mpr rfl
    exact ⟨m, covers, (once covers).mpr fun j entry there => (only j entry there).mp⟩

end Tags

/-- A result that is not constant is that of a function that is not. -/
theorem Course.notConstant {config : Config} {minterms : List Word} {n : Arity}
    {r : Minimization} {t : Trace} (course : Course config n (Ascending.ofList minterms) r t)
    (inRange : ∀ m ∈ minterms, n.admits m = true) (proper : r.isConstant = false) :
    NotConstant n minterms := by
  have told := course.isConstant_iff (Ascending.pairwise_ofList minterms) (admits_ofList inRange)
  rw [notConstant_iff inRange, ne_eq, ne_eq, ← not_or, ← told, proper]
  exact Bool.false_ne_true

/-- **The chart.** Of a minimization whose result is not constant the lines of the chart are a
title, a header, the rows of the prime implicants and lines that are no such rows. The numbers of
the header are the minterms. There is one row for each prime implicant, first the essential
ones, tagged `*`, then the candidates, tagged `+` if chosen. In the column where a number ends, a
row has an `x` or a `.`, according to whether its implicant covers the minterm. Every column has
an `x` in a row with a tag, and the rows tagged `*` are those that have an `x` with no other `x` in
its column. -/
theorem minimizeTraced_chart (config : Config) (minterms : List Word) (n : Arity)
    (r : Minimization) (t : Trace) (answered : minimizeTraced config minterms n.size = .ok (r, t))
    (proper : r.isConstant = false) :
    ∃ title header rows others,
      Text.lines t.chart.toList = title :: header :: (rows ++ others) ∧
      (∀ row ∈ rows, isChartRow row = true) ∧ (∀ line ∈ others, isChartRow line = false) ∧
      t.ChartShows (Text.numerals header) rows := by
  obtain ⟨-, inRange, course⟩ := minimizeTraced_eq_ok_iff.mp answered
  obtain ⟨choice, covered, rfl, -⟩ :=
    course.exists_choice_cover inRange (course.notConstant inRange proper)
  have known := listsPrimes_ofList inRange
  have complete := covered.completes known.coverable
  rw [Trace.lines_chart, Trace.chartLines, Trace.implicantLines_eq]
  refine ⟨_, _, _, _, rfl, fun row listed => ?_, fun line listed => ?_,
    Trace.chartShows _ known.perm (fun m => known.exists_tagged complete)
      fun i tag a => known.tag_eq_iff⟩
  · obtain ⟨⟨tag, a⟩, member, rfl⟩ := List.mem_map.mp listed
    exact List.contains_iff_mem.mpr (Trace.tag_mem member)
  · exact (Trace.aside_coveringLines _ line listed).notRow

/-- Seven minterms of one and of two digits. The chart has seven rows under its header. One is
essential, for fifteen; the others form a ring. -/
theorem minimizeTraced_chart_ring :
    ∃ r t title header rows others,
      minimizeTraced {} [15, 0, 1, 2, 5, 6, 7] 4 = .ok (r, t) ∧
      Text.lines t.chart.toList = title :: header :: (rows ++ others) ∧
      (∀ row ∈ rows, isChartRow row = true) ∧ (∀ line ∈ others, isChartRow line = false) ∧
      (Text.numerals header).map Numeral.value = [0, 1, 2, 5, 6, 7, 15] ∧ rows.length = 7 ∧
      t.ChartShows (Text.numerals header) rows := by
  obtain ⟨r, t, answered, proper, minterms, primes⟩ :
      ∃ r t, minimizeTraced {} [15, 0, 1, 2, 5, 6, 7] 4 = .ok (r, t) ∧ r.isConstant = false ∧
        t.minterms = [0, 1, 2, 5, 6, 7, 15] ∧ t.primes.length = 7 := ⟨_, _, rfl, rfl, rfl, rfl⟩
  obtain ⟨title, header, rows, others, lines, areRows, notRows, shows⟩ :=
    minimizeTraced_chart {} _ ⟨4, by decide⟩ r t answered proper
  refine ⟨r, t, title, header, rows, others, answered, lines, areRows, notRows, ?_, ?_, shows⟩
  · rw [shows.minterms, minterms]
    rfl
  · rw [shows.shown.length_eq, ← List.length_map (f := Prod.snd), Trace.map_snd_tagged,
      shows.once.length_eq, primes]

end TwoLevel
