/-
# TwoLevel.Proofs.SelfCheck — the program's answer and its own check of it

The program reads the expression it has printed, and compares its truth table with the minterms.
The comparison goes through text, grammar and evaluation and not through the cover, and cannot
fail: what is printed is read back, and its value is that of the function
(`Minimization.Denotes`), on every assignment that the table has (`agrees_of_forall`).

What is printed is a list of lines (`answer_of_ok`), none of which holds a line feed, so that it
is read back line by line (`lines_answer`). The answer to a request comes from the minimization
alone. It is therefore the same for every list of the same minterms, as far as it is printed
(`answer_congr`): the complaint about a minterm out of range goes elsewhere. The log, which is on
standard output before what is printed, is the same, too (`logged_congr`), and empty unless it was
asked for (`logged_eq_empty`).
-/
import TwoLevel.CommandLine
import TwoLevel.Proofs.ChartReading
import TwoLevel.Proofs.InputOrder
import TwoLevel.Proofs.Transparency

namespace TwoLevel

set_option autoImplicit false

namespace CommandLine

/-! ## The check -/

section Check

variable {n : Arity} {x : Word}

theorem admits_of_mem_assignments (listed : x ∈ TruthTable.assignments n.size) :
    n.admits x = true := by
  obtain ⟨i, below, rfl⟩ := List.mem_map.mp listed
  rw [List.mem_range, Nat.one_shiftLeft] at below
  have fits : i < 2 ^ 64 := lt_of_lt_of_le below (Nat.pow_le_pow_right (by decide) n.size_le)
  have value : (UInt64.ofNat i).toNat = i := UInt64.toNat_ofNat_of_lt' fits
  rwa [Arity.admits_iff_lt, value]

/-- An expression that is true on the minterms and not on other assignments passes the check. -/
theorem agrees_of_forall {e : Expression} {minterms : List Word}
    (denotes : ∀ x, n.admits x = true → (e.eval x = true ↔ x ∈ minterms)) :
    agrees e n.size minterms = true := by
  rw [agrees, List.all_eq_true]
  intro x listed
  rw [beq_iff_eq, Bool.eq_iff_iff, List.contains_iff_mem]
  exact denotes x (admits_of_mem_assignments listed)

end Check

/-! ## The lines that are printed -/

/-- The row of a cover term, without its line feed. -/
def rowLine (count : Nat) (a : Implicant) : List Char :=
  [' ', ' '] ++ a.patternBelow count ++ [' ', ' '] ++ Text.decimals (a.minterms.map (·.toNat))

/-- The lines of the result, and of the chart if asked for. -/
def bodyLines (r : Request) (result : Minimization) (trace : Trace) : List (List Char) :=
  ("f = " ++ result.expression).toList :: (result.cover.map (rowLine r.vars) ++
    if r.chart && !result.isConstant then [] :: trace.chartLines else [])

/-- The verdict on the printed expression, where there is one. -/
def verdictLines (r : Request) : List (List Char) :=
  if r.vars ≤ largestChecked then ["verified: true".toList] else []

section Lines

variable {r : Request} {result : Minimization} {trace : Trace}

theorem toList_coverRow (count : Nat) (a : Implicant) :
    (coverRow count a).toList = rowLine count a ++ ['\n'] := by
  rw [coverRow, Implicant.pattern]
  simp only [String.toList_append, String.toList_ofList, Text.toList_bracketed_word]
  rfl

theorem toList_body (r : Request) (result : Minimization) (trace : Trace) :
    (body r result trace).toList = (bodyLines r result trace).flatMap (· ++ ['\n']) := by
  have rows : (String.join (result.cover.map (coverRow r.vars))).toList =
      (result.cover.map (rowLine r.vars)).flatMap (· ++ ['\n']) := by
    rw [String.toList_join, List.flatMap_map, List.flatMap_map]
    exact List.flatMap_congr fun a _ => toList_coverRow r.vars a
  rw [body, bodyLines, List.flatMap_cons, List.flatMap_append, ← rows]
  split
  · simp [Trace.chart]
  · simp

theorem newline_not_mem_sumText (cover : List Implicant) (count : Nat) :
    '\n' ∉ sumText cover count := by
  refine Text.not_mem_intercalate (by decide) fun term listed => ?_
  obtain ⟨a, -, rfl⟩ := List.mem_map.mp listed
  exact a.newline_not_mem_term count

/-- An expression is one line. -/
theorem newline_not_mem_expression {config : Config} {minterms : List Word} {count : Nat}
    (answered : minimizeTraced config minterms count = .ok (result, trace)) :
    '\n' ∉ result.expression.toList := by
  obtain ⟨n, rfl⟩ := exists_arity_of_answer answered
  obtain ⟨-, -, course⟩ := minimizeTraced_eq_ok_iff.mp answered
  cases course with
  | never _ => decide
  | always _ _ => decide
  | proper _ _ _ _ =>
      show '\n' ∉ (String.ofList _).toList
      rw [String.toList_ofList]
      exact newline_not_mem_sumText _ _

/-- No line of the answer holds a line feed, and none but the verdict begins with a `v`. -/
theorem forall_mem_bodyLines (r : Request) (trace : Trace)
    (oneLine : '\n' ∉ result.expression.toList) :
    ∀ line ∈ bodyLines r result trace, '\n' ∉ line ∧ line.head? ≠ some 'v' := by
  rw [bodyLines, List.forall_mem_cons, List.forall_mem_append]
  refine ⟨⟨?_, ?_⟩, ?_, ?_⟩
  · simp [oneLine]
  · rw [String.toList_append]
    rintro ⟨⟩
  · intro line listed
    obtain ⟨a, -, rfl⟩ := List.mem_map.mp listed
    refine ⟨?_, by rintro ⟨⟩⟩
    simp [rowLine, a.newline_not_mem_patternBelow, Text.newline_not_mem_decimals]
  · split
    · exact List.forall_mem_cons.mpr ⟨by simp, trace.forall_mem_chartLines⟩
    · exact List.forall_mem_nil _

end Lines

/-! ## The answer to a request -/

section Answer

variable {r : Request} {result : Minimization} {trace : Trace}

/-- A request that is refused is answered by a complaint alone. -/
theorem answer_of_error {failure : Failure}
    (failed : minimizeTraced r.config r.minterms r.vars = .error failure) :
    r.answer = .failed "" failure.message := by
  rw [Request.answer, failed]

/-- A request that has a result is answered by the lines of the result, and the check passes. -/
theorem answer_of_ok
    (answered : minimizeTraced r.config r.minterms r.vars = .ok (result, trace)) :
    ∃ output, r.answer = .text output ∧
      output.toList = (bodyLines r result trace ++ verdictLines r).flatMap (· ++ ['\n']) := by
  have printed := toList_body r result trace
  obtain ⟨n, size⟩ := exists_arity_of_answer answered
  rw [Request.answer, answered]
  show ∃ output, checked r result trace (body r result trace) = .text output ∧ _
  rw [checked, verdictLines, ← size]
  rw [← size] at answered
  obtain ⟨-, inRange, course⟩ := minimizeTraced_eq_ok_iff.mp answered
  split
  · obtain ⟨-, e, parsed, value⟩ := course.denotes (Ascending.pairwise_ofList r.minterms)
      (admits_ofList inRange)
    have minterms : trace.minterms = Ascending.ofList r.minterms := by cases course <;> rfl
    have passed : agrees e n.size trace.minterms = true := by
      rw [minterms]
      exact agrees_of_forall value
    rw [parsed]
    refine ⟨_, rfl, ?_⟩
    rw [if_pos passed]
    simp [printed]
  · exact ⟨_, rfl, by rw [printed, List.append_nil]⟩

end Answer

/-! ## Reading the answer -/

/-- The numbers in the row of a cover term, behind its pattern. -/
def listed (count : Nat) (row : List Char) : List Nat :=
  (Text.numerals (row.drop (count + 4))).map Numeral.value

/-- What a row of the answer says of a cover term. -/
structure RowLists (count : Nat) (row : List Char) (a : Implicant) : Prop where
  pattern : (row.drop 2).take count = a.patternBelow count
  width : ((row.drop 2).take count).length = count
  minterms : listed count row = a.minterms.map (·.toNat)

/-- What the output for a request says of its result. -/
structure Prints (r : Request) (result : Minimization) (trace : Trace) (output : List Char) :
    Prop where
  ended : (Text.lines output).flatMap (· ++ ['\n']) = output
  expression : (Text.lines output).head? = some ("f = " ++ result.expression).toList
  rows : List.Forall₂ (RowLists r.vars) (((Text.lines output).drop 1).take result.cover.length)
    result.cover
  /-- There are no other rows: what follows is the chart, if asked for, and the verdict. -/
  rest : (Text.lines output).drop (1 + result.cover.length) =
    (if r.chart && !result.isConstant then [] :: Text.lines trace.chart.toList else []) ++
      if r.vars ≤ 16 then ["verified: true".toList] else []
  /-- Where there is a verdict it comes last. -/
  verified : r.vars ≤ 16 → (Text.lines output).getLast? = some "verified: true".toList
  notRefuted : "verified: false".toList ∉ Text.lines output
  /-- All the minterms are listed, and nothing else. -/
  union : result.isConstant = false → ∀ k : Nat,
    (∃ row ∈ ((Text.lines output).drop 1).take result.cover.length, k ∈ listed r.vars row) ↔
      ∃ x ∈ r.minterms, x.toNat = k

theorem rowLists_rowLine (count : Nat) (a : Implicant) : RowLists count (rowLine count a) a := by
  have pattern : ((rowLine count a).drop 2).take count = a.patternBelow count := by
    show (a.patternBelow count ++ [' ', ' '] ++ _).take count = _
    rw [List.append_assoc, List.take_left' (a.length_patternBelow count)]
  have front : ([' ', ' '] ++ a.patternBelow count ++ [' ', ' ']).length = count + 4 := by
    simp [a.length_patternBelow]
  refine ⟨pattern, ?_, ?_⟩
  · rw [pattern, a.length_patternBelow]
  · rw [listed, rowLine, ← front, List.drop_left, Text.values_numerals_decimals]

section Reading

variable {r : Request} {result : Minimization} {trace : Trace}

/-- The lines of the verdict, if any, follow those of the result. -/
theorem lines_answer (answered : minimizeTraced r.config r.minterms r.vars = .ok (result, trace)) :
    Text.lines r.answer.output.toList = bodyLines r result trace ++ verdictLines r ∧
      (Text.lines r.answer.output.toList).flatMap (· ++ ['\n']) = r.answer.output.toList := by
  obtain ⟨output, answer, text⟩ := answer_of_ok answered
  have plain := forall_mem_bodyLines r trace (newline_not_mem_expression answered)
  have lines : Text.lines output.toList = bodyLines r result trace ++ verdictLines r := by
    rw [text]
    refine Text.lines_flatMap (List.forall_mem_append.mpr
      ⟨fun line member => (plain line member).1, ?_⟩)
    rw [verdictLines]
    split
    · decide
    · exact List.forall_mem_nil _
  rw [answer]
  show Text.lines output.toList = _ ∧ (Text.lines output.toList).flatMap _ = output.toList
  rw [lines, text]
  exact ⟨rfl, rfl⟩

theorem take_bodyLines (others : List (List Char)) :
    ((bodyLines r result trace ++ others).drop 1).take result.cover.length =
      result.cover.map (rowLine r.vars) := by
  show (result.cover.map (rowLine r.vars) ++ _ ++ others).take result.cover.length = _
  rw [List.append_assoc, List.take_left' (List.length_map _)]

theorem drop_bodyLines (others : List (List Char)) :
    (bodyLines r result trace ++ others).drop (1 + result.cover.length) =
      (if r.chart && !result.isConstant then [] :: trace.chartLines else []) ++ others := by
  rw [← List.drop_drop]
  show (result.cover.map (rowLine r.vars) ++ _ ++ others).drop result.cover.length = _
  rw [List.append_assoc, List.drop_left' (List.length_map _)]

/-- The printed rows list the minterms of a function that is not constant. -/
theorem exists_listed_iff
    (answered : minimizeTraced r.config r.minterms r.vars = .ok (result, trace))
    (proper : result.isConstant = false) (k : Nat) :
    (∃ row ∈ result.cover.map (rowLine r.vars), k ∈ listed r.vars row) ↔
      ∃ x ∈ r.minterms, x.toNat = k := by
  obtain ⟨n, size⟩ := exists_arity_of_answer answered
  rw [← size] at answered
  obtain ⟨-, inRange, course⟩ := minimizeTraced_eq_ok_iff.mp answered
  have grouped {x : Word} := course.mem_iff_exists_cover (x := x)
    (Ascending.pairwise_ofList r.minterms) (admits_ofList inRange) proper
  constructor
  · rintro ⟨_, shown, inside⟩
    obtain ⟨a, chosen, rfl⟩ := List.mem_map.mp shown
    rw [(rowLists_rowLine _ a).minterms] at inside
    obtain ⟨x, member, value⟩ := List.mem_map.mp inside
    exact ⟨x, Ascending.mem_ofList.mp (grouped.mpr ⟨a, chosen, member⟩), value⟩
  · rintro ⟨x, member, value⟩
    obtain ⟨a, chosen, inside⟩ := grouped.mp (Ascending.mem_ofList.mpr member)
    refine ⟨_, List.mem_map_of_mem chosen, ?_⟩
    rw [(rowLists_rowLine _ a).minterms]
    exact List.mem_map.mpr ⟨x, inside, value⟩

theorem prints_of_ok
    (answered : minimizeTraced r.config r.minterms r.vars = .ok (result, trace)) :
    Prints r result trace r.answer.output.toList := by
  obtain ⟨lines, ended⟩ := lines_answer answered
  have plain := forall_mem_bodyLines r trace (newline_not_mem_expression answered)
  refine
    { ended := ended
      expression := by rw [lines]; rfl
      rows := ?_
      rest := ?_
      verified := fun small => ?_
      notRefuted := ?_
      union := fun proper k => ?_ }
  · rw [lines, take_bodyLines, List.forall₂_map_left_iff, List.forall₂_same]
    exact fun a _ => rowLists_rowLine r.vars a
  · rw [lines, drop_bodyLines, Trace.lines_chart]
    rfl
  · have checked : r.vars ≤ largestChecked := small
    rw [lines, verdictLines, if_pos checked, List.getLast?_concat]
  · rw [lines, List.mem_append, not_or]
    refine ⟨fun member => (plain _ member).2 (by decide), ?_⟩
    rw [verdictLines]
    split <;> decide
  · rw [lines, take_bodyLines, exists_listed_iff answered proper]

end Reading

/-- The program ends well, or it ends with a complaint and has printed nothing. -/
theorem exitCode_answer (r : Request) :
    (r.answer.exitCode = 0 ↔
      ∃ result trace, minimizeTraced r.config r.minterms r.vars = .ok (result, trace)) ∧
    (r.answer.exitCode ≠ 0 → r.answer.exitCode = 1 ∧ r.answer.output = "") := by
  cases outcome : minimizeTraced r.config r.minterms r.vars with
  | error failure =>
      rw [answer_of_error outcome]
      refine ⟨iff_of_false Nat.one_ne_zero ?_, fun _ => ⟨rfl, rfl⟩⟩
      rintro ⟨result, trace, ⟨⟩⟩
  | ok both =>
      obtain ⟨output, answer, -⟩ := answer_of_ok outcome
      rw [answer]
      exact ⟨iff_of_true rfl ⟨both.1, both.2, rfl⟩, fun other => absurd rfl other⟩

/-! ## Order and repetition -/

/-- Two requests for the same function, in the same way, are answered by the same output. -/
theorem answer_congr {r other : Request} (vars : other.vars = r.vars)
    (budget : other.budget = r.budget) (policy : other.policy = r.policy)
    (chart : other.chart = r.chart) (same : ∀ x, x ∈ other.minterms ↔ x ∈ r.minterms) :
    other.answer.exitCode = r.answer.exitCode ∧ other.answer.output = r.answer.output := by
  have config : other.config = r.config := by
    rw [Request.config, Request.config, budget, policy]
  have drawn (result : Minimization) (trace : Trace) :
      checked other result trace (body other result trace) =
        checked r result trace (body r result trace) := by
    rw [checked, checked, body, body, vars, chart]
  rcases normalize_congr same r.vars with alike | ⟨n, m, m', size, some, first, first'⟩
  · have outcome : minimizeTraced other.config other.minterms other.vars =
        minimizeTraced r.config r.minterms r.vars := by
      rw [config, vars]
      exact congrArg Journaled.outcome (journal_congr r.config alike)
    have answer : other.answer = r.answer := by
      rw [Request.answer, Request.answer, outcome]
      simp only [drawn]
    rw [answer]
    exact ⟨rfl, rfl⟩
  · -- both are refused, and the complaint is all they may differ in
    rw [← size] at some
    have refused : Refused other.config other.minterms n.size (.mintermOutOfRange m n.size) :=
      .mintermOutOfRange some first
    have refused' : Refused r.config r.minterms n.size (.mintermOutOfRange m' n.size) :=
      .mintermOutOfRange some first'
    rw [size] at refused'
    rw [size, ← vars] at refused
    rw [answer_of_error (minimizeTraced_eq_error refused),
      answer_of_error (minimizeTraced_eq_error refused')]
    exact ⟨rfl, rfl⟩

/-! ## The log -/

/-- Nothing is logged unless it was asked for. -/
theorem logged_eq_empty (logger : Logger) {r : Request} (quiet : r.debug = false) :
    r.logged logger = "" := by
  rw [Request.logged, Request.reports, quiet]
  rfl

theorem logged_congr (logger : Logger) {r other : Request} (vars : other.vars = r.vars)
    (budget : other.budget = r.budget) (policy : other.policy = r.policy)
    (debug : other.debug = r.debug) (same : ∀ x, x ∈ other.minterms ↔ x ∈ r.minterms) :
    other.logged logger = r.logged logger := by
  have config : other.config = r.config := by
    rw [Request.config, Request.config, budget, policy]
  rw [Request.logged, Request.logged, Request.reports, Request.reports, debug, config, vars,
    journal_events_congr r.config same r.vars]

namespace Answer

@[simp] theorem exitCode_after (front : String) (a : Answer) :
    (a.after front).exitCode = a.exitCode := by
  cases a <;> rfl

theorem output_after (front : String) {a : Answer} (formed : a ≠ .malformed) :
    (a.after front).output = front ++ a.output := by
  cases a with
  | text output => rfl
  | failed output complaint => rfl
  | malformed => exact absurd rfl formed

end Answer

theorem answer_ne_malformed (r : Request) : r.answer ≠ .malformed := by
  cases outcome : minimizeTraced r.config r.minterms r.vars with
  | error failure =>
      rw [answer_of_error outcome]
      exact Answer.noConfusion
  | ok both =>
      obtain ⟨output, answer, -⟩ := answer_of_ok outcome
      rw [answer]
      exact Answer.noConfusion

/-- What a run on an accepted command line comes to: its exit code, and the log before the text. -/
theorem run_eq {read : List String → Option Request} (logger : Logger) {arguments : List String}
    {r : Request} (accepted : read arguments = some r) :
    (run read logger arguments).exitCode = r.answer.exitCode ∧
      (run read logger arguments).output = r.logged logger ++ r.answer.output := by
  rw [run, accepted]
  exact ⟨Answer.exitCode_after _ _, Answer.output_after _ (answer_ne_malformed r)⟩

/-! ## The self-check -/

/-- **The self-check.** However the arguments are read and the log is written: the program ends
well on a command line exactly if the minimization succeeds, and otherwise with exit code 1,
having printed nothing. Standard output then holds the log alone, and that is empty unless it was
asked for. What a run that ends well prints behind the log is the expression, a row for each term
of the cover with its pattern and its minterms, which are the minterms that were given unless the
result is constant, and for up to 16 variables, as the last line, that the expression was verified;
it never prints that it was not. Neither the exit code nor standard output depends on the order and
the repetition of the minterms. -/
theorem run_exact (read : List String → Option Request) (logger : Logger)
    (arguments : List String) (r : Request) (accepted : read arguments = some r) :
    ((run read logger arguments).exitCode = 0 ↔
      ∃ result trace, minimizeTraced r.config r.minterms r.vars = .ok (result, trace)) ∧
    ((run read logger arguments).exitCode ≠ 0 →
      (run read logger arguments).exitCode = 1 ∧
        (run read logger arguments).output = r.logged logger) ∧
    (r.debug = false → r.logged logger = "") ∧
    (∀ result trace, minimizeTraced r.config r.minterms r.vars = .ok (result, trace) →
      ∃ printed, (run read logger arguments).output = r.logged logger ++ printed ∧
        Prints r result trace printed.toList) ∧
    ∀ others other, read others = some other → other.vars = r.vars →
      other.budget = r.budget → other.policy = r.policy → other.chart = r.chart →
      other.debug = r.debug → (∀ x, x ∈ other.minterms ↔ x ∈ r.minterms) →
        (run read logger others).exitCode = (run read logger arguments).exitCode ∧
          (run read logger others).output = (run read logger arguments).output := by
  obtain ⟨code, output⟩ := run_eq logger accepted
  obtain ⟨endsWell, otherwise⟩ := exitCode_answer r
  rw [code, output]
  refine ⟨endsWell, fun failed => ?_, logged_eq_empty logger, fun result trace answered =>
    ⟨_, rfl, prints_of_ok answered⟩, fun others other accepted' vars budget policy chart debug
    same => ?_⟩
  · obtain ⟨one, nothing⟩ := otherwise failed
    rw [nothing, String.append_empty]
    exact ⟨one, rfl⟩
  · obtain ⟨code', output'⟩ := run_eq logger accepted'
    obtain ⟨codes, printed⟩ := answer_congr vars budget policy chart same
    rw [code', output', codes, printed, logged_congr logger vars budget policy debug same]
    exact ⟨rfl, rfl⟩

/-- A ring of six minterms with its chart, listed in two ways; and a minterm out of range, without
a log and with one, which then is all of standard output. -/
theorem run_exact_ring :
    (∃ r result trace,
      Request.ofArguments? ["-v", "3", "--chart", "6", "0", "1", "2", "7", "5", "1"] = some r ∧
      result.isConstant = false ∧
      Prints r result trace
        (answer ["-v", "3", "--chart", "6", "0", "1", "2", "7", "5", "1"]).output.toList ∧
      (answer ["0", "1", "2", "5", "6", "7", "--vars=3", "--chart"]).output =
        (answer ["-v", "3", "--chart", "6", "0", "1", "2", "7", "5", "1"]).output) ∧
    ((answer ["8", "-v", "3"]).exitCode = 1 ∧ (answer ["8", "-v", "3"]).output = "") ∧
    let atNoon : Logger := fun _ report => "12:00:00 " ++ report.line
    (run Request.ofArguments? atNoon ["--debug", "8", "-v", "3"]).exitCode = 1 ∧
      (run Request.ofArguments? atNoon ["--debug", "8", "-v", "3"]).output =
        "12:00:00 [DEBUG] (1) minimize: config: MinimizerConfig \x7b " ++
          "max_combinations: Some(16384), budget_policy: Fail \x7d\n" := by
  refine ⟨?_, ?_, ?_⟩
  · obtain ⟨-, -, quiet, prints, congr⟩ :=
      run_exact Request.ofArguments? (fun _ => Report.line)
        ["-v", "3", "--chart", "6", "0", "1", "2", "7", "5", "1"]
        ⟨[6, 0, 1, 2, 7, 5, 1], 3, 16384, .fail, true, false⟩ (by decide)
    obtain ⟨-, same⟩ := congr ["0", "1", "2", "5", "6", "7", "--vars=3", "--chart"]
      ⟨[0, 1, 2, 5, 6, 7], 3, 16384, .fail, true, false⟩ (by decide) rfl rfl rfl rfl rfl
      (fun x => by simp only [List.mem_cons]; grind)
    obtain ⟨printed, output, shown⟩ := prints _ _ rfl
    rw [quiet rfl, String.empty_append] at output
    exact ⟨_, _, _, by decide, rfl, output ▸ shown, same⟩
  · obtain ⟨endsWell, otherwise, quiet, -⟩ :=
      run_exact Request.ofArguments? (fun _ => Report.line) ["8", "-v", "3"]
        ⟨[8], 3, 16384, .fail, false, false⟩ (by decide)
    obtain ⟨one, output⟩ := otherwise fun well => by
      obtain ⟨result, trace, answered⟩ := endsWell.mp well
      cases answered
    exact ⟨one, output.trans (quiet rfl)⟩
  · intro atNoon
    obtain ⟨endsWell, otherwise, -⟩ :=
      run_exact Request.ofArguments? atNoon ["--debug", "8", "-v", "3"]
        ⟨[8], 3, 16384, .fail, false, true⟩ (by decide)
    obtain ⟨one, output⟩ := otherwise fun well => by
      obtain ⟨result, trace, answered⟩ := endsWell.mp well
      cases answered
    exact ⟨one, output.trans (by decide)⟩

end CommandLine

end TwoLevel
