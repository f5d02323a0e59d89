import Monkey.Proofs.Outline
import Monkey.Proofs.Tracing
import Monkey.Report
/-!
# One line for each diagnostic

A diagnostic is recorded where what it says is the case: on every way through the tokens it was either there before or
has been found at a place on the way (`Parser.Finds`).  The only text of a source that a diagnostic repeats is therefore
the digits of a number, and a message goes over no line.  So a report has one line for the heading and one for each
diagnostic, and the diagnostics can be read back from it (`Parsed.one_line_for_each_diagnostic`).
-/
namespace Monkey

/-! ## Where diagnostics are found -/

namespace Parser

/-- On the way from `p` to `q`, whatever is recorded has been found at a place on the way. -/
structure Finds (p q : Parser) : Prop where
  moves : p.Moves q
  found : ∀ d ∈ q.diagnostics, d ∈ p.diagnostics ∨ ∃ r, p.Moves r ∧ d.FoundAt r

theorem Finds.of_diagnostics_eq {p q : Parser} (h : p.Moves q) (heq : q.diagnostics = p.diagnostics) : p.Finds q :=
  ⟨h, fun _ hd => .inl (heq ▸ hd)⟩

instance : Law Finds where
  refl p := .of_diagnostics_eq (Law.refl p) rfl
  trans {p q r} h h' := by
    refine ⟨Law.trans h.moves h'.moves, fun d hd => ?_⟩
    rcases h'.found d hd with hd | ⟨s, hs, hfound⟩
    · exact h.found d hd
    · exact .inr ⟨s, Law.trans h.moves hs, hfound⟩
  advance p := .of_diagnostics_eq (Law.advance p) rfl
  report {p d} hfound := by
    refine ⟨moves_report p d, fun e he => ?_⟩
    rcases List.mem_append.1 he with he | he
    · exact .inl he
    · rw [List.mem_singleton.1 he]
      exact .inr ⟨p, Law.refl p, hfound⟩
  traced rule accepted h :=
    ⟨Law.traced rule accepted h.moves, fun d hd => (h.found d hd).imp id fun ⟨r, hr, hfound⟩ =>
      ⟨r, ⟨hr.tokens, hr.endPos, hr.diagnostics⟩, hfound⟩⟩
  length_le h := Law.length_le h.moves

end Parser

/-- Every diagnostic of a source is found at a place of it. -/
theorem Parsed.exists_foundAt (source : String) :
    ∀ d ∈ (parse source).diagnostics, ∃ p, (Parser.ofSource source).Moves p ∧ d.FoundAt p := by
  intro d hd
  obtain ⟨q, hrun, hdiagnostics, -⟩ := run_program source
  have h := (Parse.proceeds_program (R := Parser.Finds) _ (.ofSource source)).of_done hrun
  rw [← hdiagnostics] at hd
  exact (h.found d hd).resolve_left List.not_mem_nil

/-! ## Messages -/

theorem Kind.oneLine_spelling (kind : Kind) : OneLine kind.spelling := by
  cases kind <;> decide

theorem Diagnostic.oneLine_expected (want got : Kind) : OneLine (expected want got).message := by
  unfold message
  simp only [oneLine_append]
  exact ⟨⟨⟨⟨by simp [OneLine], want.oneLine_spelling⟩, by simp [OneLine]⟩, got.oneLine_spelling⟩, by simp [OneLine]⟩

/-- A message goes over no line if the tokens are those of a source. -/
theorem Diagnostic.FoundAt.oneLine {p : Parser} {d : Diagnostic} (h : d.FoundAt p)
    (hwell : ∀ t ∈ p.ahead, t.wellSpelled = true) : OneLine d.message := by
  cases h with
  | expected => exact oneLine_expected _ _
  | unclosed => exact oneLine_expected _ _
  | noOperand =>
    unfold message
    simp only [oneLine_append]
    exact ⟨⟨by simp [OneLine], p.cur.kind.oneLine_spelling⟩, by simp [OneLine]⟩
  | badInteger hint =>
    have hnumber := hwell p.cur (Parser.cur_mem (by rw [hint]; decide))
    rw [Token.wellSpelled, hint] at hnumber
    unfold message
    simp only [oneLine_append]
    exact ⟨⟨by simp [OneLine], oneLine_of_isNumber hnumber⟩, by simp [OneLine]⟩

theorem Parsed.oneLine_errors (source : String) : ∀ e ∈ (parse source).errors, OneLine e := by
  refine List.forall_mem_map.2 fun d hd => ?_
  obtain ⟨p, hp, hfound⟩ := exists_foundAt source d hd
  exact hfound.oneLine fun t ht => TokenStream.wellSpelled_ofSource t (hp.subset ht)

/-! ## Reports -/

namespace Report

theorem oneLine_heading {file : Option String} (h : ∀ name ∈ file, OneLine name) : OneLine (heading file) := by
  cases file with
  | none =>
    unfold heading
    simp [OneLine]
  | some name =>
    unfold heading
    simp only [oneLine_append]
    exact ⟨⟨by simp [OneLine], h name rfl⟩, by simp [OneLine]⟩

theorem heading_injective : ∀ {file file' : Option String}, heading file = heading file' → file = file'
  | none, none, _ => rfl
  | none, some name, h | some name, none, h => by
    unfold heading at h
    simp [← String.toList_inj] at h
  | some name, some name', h => by
    unfold heading at h
    simpa [← String.toList_inj] using h

/-- A report on diagnostics without line feeds has a line for its heading and one for each of them. -/
theorem splitOn_diagnostics {errors : List String} {file : Option String} (h : ∀ e ∈ errors, OneLine e)
    (hfile : ∀ name ∈ file, OneLine name) : (diagnostics errors file).toList.splitOn '\n' =
      (heading file).toList :: errors.map fun e => '\t' :: e.toList := by
  have hlines : (diagnostics errors file).toList =
      ['\n'].intercalate ((heading file).toList :: errors.map fun e => '\t' :: e.toList) := by
    rw [diagnostics, String.toList_intercalate]
    simp [Function.comp_def]
  rw [hlines]
  refine List.splitOn_intercalate _ (List.forall_mem_cons.2 ⟨oneLine_heading hfile, ?_⟩) (List.cons_ne_nil _ _)
  exact List.forall_mem_map.2 fun e he => List.not_mem_cons_of_ne_of_not_mem (by decide) (h e he)

/-- Such a report gives back the diagnostics, and the name of the file. -/
theorem diagnostics_injective {errors errors' : List String} {file file' : Option String} (h : ∀ e ∈ errors, OneLine e)
    (h' : ∀ e ∈ errors', OneLine e) (hfile : ∀ name ∈ file, OneLine name) (hfile' : ∀ name ∈ file', OneLine name)
    (heq : diagnostics errors file = diagnostics errors' file') : errors = errors' ∧ file = file' := by
  have hlines := congrArg (fun text => text.toList.splitOn '\n') heq
  simp only [splitOn_diagnostics h hfile, splitOn_diagnostics h' hfile', List.cons.injEq] at hlines
  have hinjective : Function.Injective fun e : String => '\t' :: e.toList := fun e e' he =>
    String.toList_inj.1 (List.cons.inj he).2
  exact ⟨List.map_injective_iff.2 hinjective hlines.2, heading_injective (String.toList_inj.1 hlines.1)⟩

end Report

/-- **One line for each diagnostic.**  Whatever the source, no diagnostic has a line feed; so the lines of a report,
under a file name without a line feed or none, are the heading and then the diagnostics in order, each behind a tab.  Two
reports are the same only if their diagnostics are, and the name of the file. -/
theorem Parsed.one_line_for_each_diagnostic (source : String) :
    (∀ e ∈ (parse source).errors, '\n' ∉ e.toList) ∧
    (∀ file : Option String, (∀ name ∈ file, '\n' ∉ name.toList) →
      (Report.diagnostics (parse source).errors file).toList.splitOn '\n' =
        (Report.heading file).toList :: (parse source).errors.map fun e => '\t' :: e.toList) ∧
    ∀ (source' : String) (file file' : Option String), (∀ name ∈ file, '\n' ∉ name.toList) →
      (∀ name ∈ file', '\n' ∉ name.toList) →
      Report.diagnostics (parse source).errors file = Report.diagnostics (parse source').errors file' →
      (parse source).errors = (parse source').errors ∧ file = file' :=
  ⟨oneLine_errors source, fun _ => Report.splitOn_diagnostics (oneLine_errors source),
    fun source' _ _ => Report.diagnostics_injective (oneLine_errors source) (oneLine_errors source')⟩

/-- A line feed in a string, and one in the source, are in no message; a number is, with its digits. -/
theorem Parsed.one_line_for_each_diagnostic_number :
    (Report.diagnostics (parse "let \"a\\nb\";\n9223372036854775808").errors (some "x.monkey")).toList.splitOn '\n' =
        ["parser errors in 'x.monkey':".toList, "\texpected next token to be IDENT, got STRING instead".toList,
          "\tcould not parse 9223372036854775808 as integer".toList] ∧
      Report.diagnostics (parse "let \"a\\nb\";\n9223372036854775808").errors none ≠
        Report.diagnostics (parse ")").errors (some "x.monkey") := by
  obtain ⟨-, hlines, hinjective⟩ := one_line_for_each_diagnostic "let \"a\\nb\";\n9223372036854775808"
  have hfile : ∀ name ∈ some "x.monkey", '\n' ∉ name.toList := by simp
  refine ⟨?_, fun heq => ?_⟩
  · rw [hlines (some "x.monkey") hfile]
    decide +kernel
  · exact absurd (hinjective ")" none (some "x.monkey") (by simp) hfile heq).2 (by simp)

end Monkey
