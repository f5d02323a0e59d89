import Monkey.Proofs.Halting
import Monkey.Proofs.Quiet
/-!
# Traces are well nested

Between any two moments of a run the marks of a trace pair up: what a rule does stands between its two marks, and this is
kept by every move of a parser, so it is a law of motion (`Parser.Encloses`).  Printed, a pair of marks is a line `BEGIN`
and a line `END` below as many rules as are open, with the lines of the rules inside in between (`Trace.Bracketed`).
Together with the grammar without its tracing this says what a trace is: a faithful record that changes nothing
(`trace_faithful`).
-/
namespace Monkey

/-- Marks that pair up: each rule that is entered is left again, and so are the rules inside it. -/
inductive Mark.Balanced : List Mark → Prop where
  | nil : Balanced []
  | rule (rule : Rule) (token : Token) (accepted : Bool) {inner rest : List Mark} :
      Balanced inner → Balanced rest → Balanced (enter rule token :: inner ++ leave rule accepted :: rest)

theorem Mark.Balanced.append {ms ms' : List Mark} (h : Balanced ms) (h' : Balanced ms') : Balanced (ms ++ ms') := by
  induction h with
  | nil => exact h'
  | rule rule token accepted hinner _ _ ih =>
    rw [List.append_assoc]
    exact .rule rule token accepted hinner ih

/-- How many rules are open behind marks, if so many were open before them. -/
def Mark.openAfter : Nat → List Mark → Nat
  | depth, [] => depth
  | depth, enter _ _ :: rest => openAfter (depth + 1) rest
  | depth, leave _ _ :: rest => openAfter (depth - 1) rest

@[simp] theorem Mark.openAfter_append : ∀ (depth : Nat) (ms ms' : List Mark),
    openAfter depth (ms ++ ms') = openAfter (openAfter depth ms) ms'
  | _, [], _ => rfl
  | _, enter _ _ :: ms, ms' => openAfter_append _ ms ms'
  | _, leave _ _ :: ms, ms' => openAfter_append _ ms ms'

/-- Marks that pair up leave no rule open. -/
theorem Mark.Balanced.openAfter_eq {ms : List Mark} (h : Balanced ms) (depth : Nat) : openAfter depth ms = depth := by
  induction h generalizing depth with
  | nil => rfl
  | @rule rule token accepted inner rest _ _ ihi ihr =>
    calc openAfter depth (enter rule token :: inner ++ leave rule accepted :: rest)
        = openAfter (openAfter (depth + 1) inner) (leave rule accepted :: rest) := openAfter_append (depth + 1) _ _
      _ = openAfter (depth + 1) (leave rule accepted :: rest) := by rw [ihi]
      _ = depth := ihr depth

/-! ## Marks on the way -/

namespace Parser

/-- The marks on the way from `p` to `q` pair up. -/
structure Encloses (p q : Parser) : Prop where
  marks : ∃ ms, q.marks.reverse = p.marks.reverse ++ ms ∧ Mark.Balanced ms
  length_le : q.ahead.length ≤ p.ahead.length

theorem Encloses.of_marks_eq {p q : Parser} (hm : q.marks = p.marks) (hlen : q.ahead.length ≤ p.ahead.length) :
    p.Encloses q := ⟨⟨[], by rw [hm, List.append_nil], .nil⟩, hlen⟩

theorem encloses_report (p : Parser) (d : Diagnostic) : p.Encloses (p.report d) := .of_marks_eq rfl (Nat.le_refl _)

instance : Law Encloses where
  refl _ := .of_marks_eq rfl (Nat.le_refl _)
  trans h h' := by
    obtain ⟨ms, hms, hb⟩ := h.marks
    obtain ⟨ms', hms', hb'⟩ := h'.marks
    exact ⟨⟨ms ++ ms', by rw [hms', hms, List.append_assoc], hb.append hb'⟩, Nat.le_trans h'.length_le h.length_le⟩
  advance p := .of_marks_eq rfl (by rw [length_advance]; exact Nat.sub_le _ _)
  report _ := encloses_report _ _
  traced {p q} rule accepted h := by
    obtain ⟨ms, hms, hb⟩ := h.marks
    refine ⟨⟨.enter rule p.cur :: ms ++ [.leave rule accepted], ?_, .rule rule _ accepted hb .nil⟩, h.length_le⟩
    show (_ :: q.marks).reverse = _
    rw [List.reverse_cons, hms]
    show (_ :: p.marks).reverse ++ ms ++ _ = _
    simp
  length_le h := h.length_le

end Parser

/-! ## Lines -/

namespace Trace

/-- The line with which a rule begins below so many open rules. -/
def begins (depth : Nat) (rule : Rule) (token : Token) : String :=
  Mark.indent depth ++ "BEGIN " ++ rule.name ++ " (" ++ token.display ++ ")"

/-- The line with which it ends. -/
def ends (depth : Nat) (rule : Rule) : String := Mark.indent depth ++ "END " ++ rule.name

/-- Lines that pair up below so many open rules: a rule is between its two lines, which are indented by twice the number
of the rules around it. -/
inductive Bracketed : Nat → List String → Prop where
  | nil (depth : Nat) : Bracketed depth []
  | rule {depth : Nat} (rule : Rule) (token : Token) {inner rest : List String} :
      Bracketed (depth + 1) inner → Bracketed depth rest →
      Bracketed depth (begins depth rule token :: inner ++ ends depth rule :: rest)

@[simp] theorem lines_enter (depth : Nat) (rule : Rule) (token : Token) (ms : List Mark) :
    Mark.lines depth (.enter rule token :: ms) = begins depth rule token :: Mark.lines (depth + 1) ms := rfl

@[simp] theorem lines_leave (depth : Nat) (rule : Rule) (accepted : Bool) (ms : List Mark) :
    Mark.lines (depth + 1) (.leave rule accepted :: ms) = ends depth rule :: Mark.lines depth ms := rfl

theorem lines_append : ∀ (depth : Nat) (ms ms' : List Mark),
    Mark.lines depth (ms ++ ms') = Mark.lines depth ms ++ Mark.lines (Mark.openAfter depth ms) ms'
  | _, [], _ => rfl
  | depth, .enter _ _ :: ms, ms' => congrArg (_ :: ·) (lines_append (depth + 1) ms ms')
  | depth, .leave _ _ :: ms, ms' => congrArg (_ :: ·) (lines_append (depth - 1) ms ms')

theorem bracketed_lines {ms : List Mark} (h : Mark.Balanced ms) (depth : Nat) :
    Bracketed depth (Mark.lines depth ms) := by
  induction h generalizing depth with
  | nil => exact .nil depth
  | rule rule token accepted hinner _ ihi ihr =>
    rw [List.cons_append, lines_enter, lines_append, hinner.openAfter_eq, lines_leave]
    exact .rule rule token (ihi (depth + 1)) (ihr depth)

/-! ## The partner of a line -/

/-- The first word of a line, whatever its indentation. -/
def opens (line : String) : Bool := "BEGIN ".toList.isPrefixOf (line.toList.dropWhile (· == ' '))

/-- How many rules are open after some lines, if so many were open before them. -/
def openAfter (depth : Nat) (lines : List String) : Nat :=
  lines.foldl (fun n line => if opens line then n + 1 else n - 1) depth

theorem indent_toList (depth : Nat) : (Mark.indent depth).toList = List.replicate (2 * depth) ' ' := by
  rw [Mark.indent, String.toList_ofList]

theorem opens_indent (depth : Nat) (text : String) : opens (Mark.indent depth ++ text) = opens text := by
  have hspaces : ∀ c ∈ List.replicate (2 * depth) ' ', (c == ' ') = true := fun c hc => by
    rw [List.eq_of_mem_replicate hc]; rfl
  rw [opens, opens, String.toList_append, indent_toList, List.dropWhile_append_of_pos hspaces]

theorem opens_begins (depth : Nat) (rule : Rule) (token : Token) : opens (begins depth rule token) = true := by
  rw [begins, String.append_assoc, String.append_assoc, String.append_assoc, String.append_assoc, opens_indent, opens,
    String.toList_append]
  rfl

theorem opens_ends (depth : Nat) (rule : Rule) : opens (ends depth rule) = false := by
  rw [ends, String.append_assoc, opens_indent, opens, String.toList_append]
  rfl

@[simp] theorem openAfter_append (depth : Nat) (ls ls' : List String) :
    openAfter depth (ls ++ ls') = openAfter (openAfter depth ls) ls' := List.foldl_append

@[simp] theorem openAfter_begins (depth : Nat) (rule : Rule) (token : Token) (ls : List String) :
    openAfter depth (begins depth rule token :: ls) = openAfter (depth + 1) ls := by
  rw [openAfter, List.foldl_cons, if_pos (opens_begins depth rule token)]
  rfl

@[simp] theorem openAfter_ends (depth : Nat) (rule : Rule) (ls : List String) :
    openAfter (depth + 1) (ends depth rule :: ls) = openAfter depth ls := by
  rw [openAfter, List.foldl_cons, if_neg (by rw [opens_ends]; decide)]
  rfl

/-- Lines that pair up leave no rule open. -/
theorem Bracketed.openAfter_eq {depth : Nat} {ls : List String} (h : Bracketed depth ls) :
    openAfter depth ls = depth := by
  induction h with
  | nil depth => rfl
  | rule rule token _ _ ihi ihr => rw [List.cons_append, openAfter_begins, openAfter_append, ihi, openAfter_ends, ihr]

theorem append_cons_cases {α : Type} {xs ys us vs : List α} {a b : α} (h : xs ++ a :: ys = us ++ b :: vs) :
    (∃ ws, us = xs ++ a :: ws ∧ ys = ws ++ b :: vs) ∨ (xs = us ∧ a = b ∧ ys = vs) ∨
      ∃ ws, xs = us ++ b :: ws ∧ vs = ws ++ a :: ys := by
  obtain ⟨ws, hus, hys⟩ | ⟨ws, hxs, hvs⟩ := List.append_eq_append_iff.1 h
  · cases ws with
    | nil => exact .inr (.inl ⟨by simpa using hus.symm, by simpa using hys⟩)
    | cons c ws =>
      obtain ⟨rfl, rfl⟩ := List.cons.inj hys
      exact .inl ⟨ws, hus, rfl⟩
  · cases ws with
    | nil => exact .inr (.inl ⟨by simpa using hxs, by simpa [eq_comm] using hvs⟩)
    | cons c ws =>
      obtain ⟨rfl, rfl⟩ := List.cons.inj hvs
      exact .inr (.inr ⟨ws, hxs, rfl⟩)

/-- A line among lines that pair up begins a rule that ends behind it, or ends one that began before it; it is indented
by the number of rules open there. -/
theorem Bracketed.partner {depth : Nat} {ls : List String} (h : Bracketed depth ls) :
    ∀ {pre post : List String} {line : String}, ls = pre ++ line :: post →
      (∃ rule token inner rest, line = begins (openAfter depth pre) rule token ∧
        post = inner ++ ends (openAfter depth pre) rule :: rest ∧ Bracketed (openAfter depth pre + 1) inner) ∨
      ∃ rule token before inner, pre = before ++ begins (openAfter depth before) rule token :: inner ∧
        line = ends (openAfter depth before) rule ∧ Bracketed (openAfter depth before + 1) inner := by
  induction h with
  | nil depth => intro pre post line h; cases pre <;> cases h
  | @rule depth rule token inner rest hinner _ ihi ihr =>
    intro pre post line hsplit
    cases pre with
    | nil =>
      obtain ⟨rfl, rfl⟩ := List.cons.inj hsplit
      exact .inl ⟨rule, token, inner, rest, rfl, rfl, hinner⟩
    | cons first pre =>
      simp only [List.cons_append, List.cons.injEq] at hsplit
      obtain ⟨rfl, hsplit⟩ := hsplit
      rw [openAfter_begins]
      obtain ⟨mid, hin, rfl⟩ | ⟨rfl, rfl, rfl⟩ | ⟨mid, rfl, hrest⟩ := append_cons_cases hsplit.symm
      · -- inside it
        obtain ⟨rule', token', inner', rest', hline, rfl, hb⟩ | ⟨rule', token', before, inner', rfl, hline, hb⟩ :=
          ihi hin
        · exact .inl ⟨rule', token', inner', rest' ++ ends depth rule :: rest, hline, by simp, hb⟩
        · exact .inr ⟨rule', token', begins depth rule token :: before, inner', by rw [openAfter_begins]; rfl,
            by rw [openAfter_begins]; exact hline, by rw [openAfter_begins]; exact hb⟩
      · exact .inr ⟨rule, token, [], pre, rfl, rfl, hinner⟩
      · -- behind the end of this rule
        rw [openAfter_append, hinner.openAfter_eq, openAfter_ends]
        obtain h | ⟨rule', token', before, inner', rfl, hline, hb⟩ := ihr hrest
        · exact .inl h
        · refine .inr ⟨rule', token', begins depth rule token :: inner ++ ends depth rule :: before, inner', ?_⟩
          rw [List.cons_append, openAfter_begins, openAfter_append, hinner.openAfter_eq, openAfter_ends]
          exact ⟨by simp, hline, hb⟩

/-! ## Indentation -/

/-- A line inside so many rules. -/
def Indented (depth : Nat) (line : String) : Prop := (Mark.indent depth).toList <+: line.toList

theorem Indented.of_succ {depth : Nat} {line : String} (h : Indented (depth + 1) line) : Indented depth line := by
  refine .trans ?_ h
  rw [indent_toList, indent_toList, Nat.mul_succ, ← List.replicate_append_replicate]
  exact List.prefix_append _ _

theorem indented_begins (depth : Nat) (rule : Rule) (token : Token) : Indented depth (begins depth rule token) := by
  simp only [Indented, begins, String.toList_append, List.append_assoc]
  exact List.prefix_append _ _

theorem indented_ends (depth : Nat) (rule : Rule) : Indented depth (ends depth rule) := by
  simp only [Indented, ends, String.toList_append, List.append_assoc]
  exact List.prefix_append _ _

/-- The last line of a rule is no line inside it. -/
theorem not_indented_ends (depth : Nat) (rule : Rule) : ¬Indented (depth + 1) (ends depth rule) := by
  simp only [Indented, ends, String.toList_append, indent_toList, Nat.mul_succ, ← List.replicate_append_replicate,
    List.append_assoc]
  intro h
  have hspaces := (List.prefix_append_right_inj _).1 h
  simp at hspaces

theorem Bracketed.indented {depth : Nat} {ls : List String} (h : Bracketed depth ls) :
    ∀ line ∈ ls, Indented depth line := by
  induction h with
  | nil depth => exact fun _ h => nomatch h
  | @rule depth rule token inner rest _ _ ihi ihr =>
    intro line hline
    rcases List.mem_append.1 hline with hline | hline
    · rcases List.mem_cons.1 hline with rfl | hline
      · exact indented_begins depth rule token
      · exact (ihi line hline).of_succ
    · rcases List.mem_cons.1 hline with rfl | hline
      · exact indented_ends depth rule
      · exact ihr line hline

/-- Behind the line that begins a rule stand these lines inside it, and then the line that ends it. -/
def Body (depth : Nat) (rule : Rule) (inner post : List String) : Prop :=
  (∀ line ∈ inner, Indented (depth + 1) line) ∧ inner ++ [ends depth rule] <+: post

/-- A rule has one last line. -/
theorem Body.unique {depth : Nat} {rule : Rule} {inner inner' post : List String} (h : Body depth rule inner post)
    (h' : Body depth rule inner' post) : inner = inner' := by
  obtain ⟨hin, rest, rfl⟩ := h
  obtain ⟨hin', rest', hpost⟩ := h'
  have hmem {ls ms : List String} : ends depth rule ∈ ls ++ ends depth rule :: ms := by simp
  rw [List.append_assoc, List.append_assoc] at hpost
  obtain ⟨mid, rfl, -⟩ | ⟨rfl, -, -⟩ | ⟨mid, rfl, -⟩ := append_cons_cases hpost
  · exact absurd (hin _ hmem) (not_indented_ends depth rule)
  · rfl
  · exact absurd (hin' _ hmem) (not_indented_ends depth rule)

theorem Bracketed.body {depth : Nat} {rule : Rule} {inner rest : List String} (h : Bracketed (depth + 1) inner) :
    Body depth rule inner (inner ++ ends depth rule :: rest) := ⟨h.indented, ⟨rest, by simp⟩⟩

end Trace

/-! ## The trace of a text -/

/-- The run whose result a parsed text is. -/
theorem Parsed.run_program (source : String) :
    ∃ q, Parse.program (Parser.ofSource source).budget (.ofSource source) = .done (parse source).program q ∧
      q.diagnostics = (parse source).diagnostics ∧ q.marks.reverse = (parse source).marks := by
  obtain ⟨statements, q, -, -, hrun⟩ := Parse.program_budget (.ofSource source)
  have hparse : parse source = ⟨⟨(Parser.ofSource source).cur, statements⟩, q.diagnostics, q.marks.reverse⟩ := by
    unfold Parser.ofSource at hrun ⊢
    simp only [parse, ofStream, Parser.run, hrun, Option.getD_some]
  rw [hparse]
  exact ⟨q, hrun, rfl, rfl⟩

theorem Parsed.balanced_marks (source : String) : Mark.Balanced (parse source).marks := by
  obtain ⟨q, hrun, -, hmarks⟩ := run_program source
  have h := (Parse.proceeds_program (R := Parser.Encloses) _ (.ofSource source)).of_done hrun
  obtain ⟨ms, hms, hbalanced⟩ := h.marks
  rw [← hmarks, hms]
  exact hbalanced

/-- **A trace is faithful and well nested.**  Nothing is printed unless a trace is asked for; the grammar without its
tracing reads the same program and finds the same diagnostics.  The lines of a trace pair up, and leave no rule open:
each is indented by twice the number of rules that are open before it, or that are left open by it, and either begins a
rule, which has one last line behind it, or ends a rule that began before it. -/
theorem Parsed.trace_faithful (source : String) :
    (parse source).trace false = [] ∧
    (∃ quiet q, Parse.Untraced (Parse.program (Parser.ofSource source).budget) quiet ∧
      quiet (.ofSource source) = .done (parse source).program q ∧ q.diagnostics = (parse source).diagnostics ∧
      q.marks = []) ∧
    Trace.Bracketed 0 ((parse source).trace true) ∧ Trace.openAfter 0 ((parse source).trace true) = 0 ∧
    ∀ pre line post, (parse source).trace true = pre ++ line :: post →
      (∃ rule token, line = Trace.begins (Trace.openAfter 0 pre) rule token ∧
        ∃! inner, Trace.Body (Trace.openAfter 0 pre) rule inner post) ∨
      ∃ rule token before inner, pre = before ++ Trace.begins (Trace.openAfter 0 before) rule token :: inner ∧
        line = Trace.ends (Trace.openAfter 0 before) rule ∧
        Trace.openAfter 0 pre = Trace.openAfter 0 before + 1 ∧
        Trace.Body (Trace.openAfter 0 before) rule inner (inner ++ line :: post) := by
  have hbracketed : Trace.Bracketed 0 ((parse source).trace true) := Trace.bracketed_lines (balanced_marks source) 0
  refine ⟨rfl, ?_, hbracketed, hbracketed.openAfter_eq, fun pre line post hsplit => ?_⟩
  · obtain ⟨q, hrun, hdiagnostics, -⟩ := run_program source
    obtain ⟨quiet, hquiet⟩ := Parse.quieted_program (Parser.ofSource source).budget
    have hagrees := hquiet.eq_withMarks (.ofSource source) []
    rw [hrun] at hagrees
    exact ⟨quiet, q.withMarks [], hquiet, hagrees, hdiagnostics, rfl⟩
  · obtain ⟨rule, token, inner, rest, hline, rfl, hinner⟩ | ⟨rule, token, before, inner, rfl, rfl, hinner⟩ :=
      hbracketed.partner hsplit
    · exact .inl ⟨rule, token, hline, inner, hinner.body, fun inner' h => h.unique hinner.body⟩
    · refine .inr ⟨rule, token, before, inner, rfl, rfl, ?_, hinner.body⟩
      rw [Trace.openAfter_append, Trace.openAfter_begins, hinner.openAfter_eq]

/-- A statement that is dropped leaves no rule open. -/
example : (parse "let 1").trace true = ["BEGIN parse_statement (LET('let'))", "END parse_statement"] := by
  decide +kernel

end Monkey
