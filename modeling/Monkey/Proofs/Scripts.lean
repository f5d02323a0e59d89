import Monkey.Proofs.Evaluation
import Monkey.Session.Script
/-!
# Scripts and submissions

A script is its text submitted to a fresh session.  What it shows differs from what the submission shows in two places
only: the heading over diagnostics names the file, and the name of the file stands behind a runtime error.  These two
are also the ends with exit code 1 (`Script.run_agrees`).
-/
namespace Monkey

/-! ## What names a file -/

/-- Diagnostics under their heading, told without separators: each begins a line, behind a tab. -/
theorem Report.diagnostics_eq (errors : List String) (file : Option String) :
    diagnostics errors file = heading file ++ String.join (errors.map fun e => "\n" ++ ("\t" ++ e)) := by
  unfold diagnostics
  generalize heading file = line
  induction errors generalizing line with
  | nil => simp
  | cons e errors ih =>
    rw [List.map_cons, String.intercalate_cons_cons, ih]
    simp [String.append_assoc]

theorem Report.fault_some (f : Fault) (path : String) :
    fault f (some path) = fault f none ++ (" (in '" ++ path ++ "')") := by
  simp [fault, String.append_assoc]

/-- A text with diagnostics is refused with them, and any other text is its program. -/
theorem parseStrict_of_errors {source : String} (h : (parse source).errors ≠ []) (file : Option String) :
    parseStrict source file = .error (.diagnostics (parse source).errors file) := by
  simp [parseStrict, h]

theorem parseStrict_of_no_errors {source : String} (h : (parse source).errors = []) (file : Option String) :
    parseStrict source file = .ok (parse source).program := by
  simp [parseStrict, h]

/-- Only a runtime error is refused. -/
theorem Value.strict_of_not_isError {v : Value} (h : v.isError = false) (file : Option String) :
    v.strict file = .ok v := by
  cases v with
  | error => cases h
  | _ => rfl

theorem printed_singleton (line : String) : printed [line] = line ++ "\n" := by
  simp [printed]

/-- The runtime error that a submission ends with. -/
def Verdict.fault? : Verdict → Option Fault
  | value (.error _ f) => some f
  | _ => none

theorem Verdict.eq_of_fault? {verdict : Verdict} {f : Fault} (h : verdict.fault? = some f) :
    ∃ id, verdict = value (.error id f) := by
  unfold fault? at h
  split at h
  · rename_i id g
    obtain rfl := Option.some.inj h
    exact ⟨id, rfl⟩
  · cases h

namespace Script

variable (settings : Settings) (path : String) {source : String}

/-! ## The two ways to run a text -/

/-- A script with diagnostics is not run. -/
theorem runSource_of_errors (h : (parse source).errors ≠ []) :
    runSource settings path source = ⟨printed ((parse source).trace settings.debug) ++
      printed [Report.diagnostics (parse source).errors (some path)], 1⟩ := by
  rw [runSource, parseStrict_of_errors h]
  rfl

theorem errors_eq_nil_of_value {session : Session} {v : Value}
    (h : (session.submit settings source).verdict = .value v) : (parse source).errors = [] := by
  by_cases herrors : (parse source).errors = []
  · exact herrors
  · rw [Session.submit_of_errors _ _ herrors] at h
    cases h

/-- A script whose result is a runtime error reports it with the file. -/
theorem runSource_of_fault {id : Identity} {f : Fault}
    (h : (Session.start.submit settings source).verdict = .value (.error id f)) :
    runSource settings path source =
      ⟨(Session.start.submit settings source).output ++ printed [Report.fault f (some path)], 1⟩ := by
  have herrors := errors_eq_nil_of_value settings h
  rw [Session.submit_of_no_errors _ _ herrors] at h ⊢
  rw [runSource, parseStrict_of_no_errors herrors]
  simp only [Session.run] at h ⊢
  generalize (Eval.evaluate _ _ _).run _ = result at h ⊢
  cases hresult : result.1 with
  | none => simp [hresult] at h
  | some u =>
    obtain rfl : u = .error id f := by simpa [hresult] using h
    rfl

/-- Any other script shows what its submission shows. -/
theorem runSource_of_value {v : Value} (h : (Session.start.submit settings source).verdict = .value v)
    (hv : v.isError = false) :
    runSource settings path source = ⟨(Session.start.submit settings source).transcript, 0⟩ := by
  have herrors := errors_eq_nil_of_value settings h
  rw [Session.submit_of_no_errors _ _ herrors] at h ⊢
  rw [runSource, parseStrict_of_no_errors herrors]
  simp only [Submission.transcript, Session.run] at h ⊢
  generalize (Eval.evaluate _ _ _).run _ = result at h ⊢
  cases hresult : result.1 with
  | none => simp [hresult] at h
  | some u =>
    obtain rfl : u = v := by simpa [hresult] using h
    simp only [Option.map_some, Value.strict_of_not_isError hv]
    cases u with
    | error => cases hv
    | _ => simp [Verdict.texts, printed]

/-- A submission that does not nest too deeply ends with diagnostics, with a runtime error or with any other value. -/
theorem submission_cases (hdepth : (Session.start.submit settings source).verdict ≠ .overflow) :
    (parse source).errors ≠ [] ∨
      (∃ id f, (Session.start.submit settings source).verdict = .value (.error id f)) ∨
      ∃ v, (Session.start.submit settings source).verdict = .value v ∧ v.isError = false := by
  by_cases h : (parse source).errors = []
  · have hverdict := Session.verdict_accepted .start settings h
    cases hresult : (Session.start.run settings source).1 with
    | none =>
      rw [hresult] at hverdict
      exact absurd hverdict hdepth
    | some v =>
      rw [hresult] at hverdict
      cases v with
      | error id f => exact .inr (.inl ⟨id, f, hverdict⟩)
      | _ => exact .inr (.inr ⟨_, hverdict, rfl⟩)
  · exact .inl h

/-! ## What is shown, and the exit code -/

theorem shows_errors (h : (parse source).errors ≠ []) :
    let trace := printed ((parse source).trace settings.debug)
    let listed := String.join ((parse source).errors.map fun e => "\n" ++ ("\t" ++ e)) ++ "\n"
    (Session.start.submit settings source).session = .start ∧
      (Session.start.submit settings source).transcript = trace ++ ("parser errors:" ++ listed) ∧
      (runSource settings path source).output = trace ++ ("parser errors in '" ++ path ++ "':" ++ listed) := by
  intro trace listed
  rw [Session.submit_of_errors _ _ h, runSource_of_errors _ _ h]
  refine ⟨rfl, ?_, ?_⟩
  · show trace ++ printed [Report.diagnostics _ none] = _
    rw [printed_singleton, Report.diagnostics_eq, String.append_assoc]
    rfl
  · show trace ++ printed [Report.diagnostics _ (some path)] = _
    rw [printed_singleton, Report.diagnostics_eq, String.append_assoc]
    rfl

theorem shows_fault {id : Identity} {f : Fault}
    (h : (Session.start.submit settings source).verdict = .value (.error id f)) :
    (Session.start.submit settings source).transcript =
        (Session.start.submit settings source).output ++ ("ERROR: " ++ f.message ++ "\n") ∧
      (runSource settings path source).output = (Session.start.submit settings source).output ++
        ("ERROR: " ++ f.message ++ (" (in '" ++ path ++ "')") ++ "\n") := by
  constructor
  · unfold Submission.transcript
    rw [h, Verdict.texts, printed_singleton]
    · rfl
    · nofun
  · rw [runSource_of_fault _ _ h, printed_singleton, Report.fault_some]
    rfl

/-- The exit code tells diagnostics and runtime errors from all else. -/
theorem code_iff (hdepth : (Session.start.submit settings source).verdict ≠ .overflow) :
    ((runSource settings path source).code = 1 ↔ (parse source).errors ≠ [] ∨
      ∃ id f, (Session.start.submit settings source).verdict = .value (.error id f)) ∧
    ((runSource settings path source).code ≠ 1 → (runSource settings path source).code = 0) := by
  rcases submission_cases settings hdepth with h | ⟨id, f, h⟩ | ⟨v, h, hv⟩
  · rw [runSource_of_errors _ _ h]
    exact ⟨⟨fun _ => .inl h, fun _ => rfl⟩, fun hne => absurd rfl hne⟩
  · rw [runSource_of_fault _ _ h]
    exact ⟨⟨fun _ => .inr ⟨id, f, h⟩, fun _ => rfl⟩, fun hne => absurd rfl hne⟩
  · rw [runSource_of_value _ _ h hv]
    refine ⟨⟨nofun, ?_⟩, fun _ => rfl⟩
    rintro (hne | ⟨id, f, herror⟩)
    · exact absurd (errors_eq_nil_of_value settings h) hne
    · cases h.symm.trans herror
      cases hv

/-- **A script agrees with its submission.**  If the nesting is not too deep, a script shows what the submission of its
text to a fresh session shows, but that the heading over diagnostics names the file and the name of the file stands
behind a runtime error.  Its exit code is 1 for a text with diagnostics, of which nothing is run, and for a text whose
result is a runtime error; otherwise it is 0. -/
theorem run_agrees {bytes : List Nat} (hsource : decode bytes = .ok source)
    (hdepth : (Session.start.submit settings source).verdict ≠ .overflow) :
    let trace := printed ((parse source).trace settings.debug)
    let listed := String.join ((parse source).errors.map fun e => "\n" ++ ("\t" ++ e)) ++ "\n"
    let submission := Session.start.submit settings source
    let exit := run settings path bytes
    ((exit.code = 1 ↔ (parse source).errors ≠ [] ∨ ∃ id f, submission.verdict = .value (.error id f)) ∧
      (exit.code ≠ 1 → exit.code = 0)) ∧
    ((parse source).errors ≠ [] → submission.session = .start ∧
      submission.transcript = trace ++ ("parser errors:" ++ listed) ∧
      exit.output = trace ++ ("parser errors in '" ++ path ++ "':" ++ listed)) ∧
    (∀ id f, submission.verdict = .value (.error id f) →
      submission.transcript = submission.output ++ ("ERROR: " ++ f.message ++ "\n") ∧
      exit.output = submission.output ++ ("ERROR: " ++ f.message ++ (" (in '" ++ path ++ "')") ++ "\n")) ∧
    ((parse source).errors = [] → (∀ id f, submission.verdict ≠ .value (.error id f)) →
      exit.output = submission.transcript) := by
  intro trace listed submission exit
  have hexit : exit = runSource settings path source := by
    show run settings path bytes = _
    unfold run
    rw [hsource]
  rw [hexit]
  refine ⟨code_iff settings path hdepth, shows_errors settings path, fun id f => shows_fault settings path, ?_⟩
  intro hnil hvalue
  rcases submission_cases settings hdepth with h | ⟨id, f, h⟩ | ⟨v, h, hv⟩
  · exact absurd hnil h
  · exact absurd h (hvalue id f)
  · rw [runSource_of_value settings path h hv]

/-- A line is printed before the division fails: the script shows both, names itself behind the error, and fails. -/
theorem run_agrees_division :
    ∃ (settings : Settings) (bytes : List Nat) (source : String),
      decode bytes = .ok source ∧ (Session.start.submit settings source).verdict ≠ .overflow ∧
      (Session.start.submit settings source).output = "7\n" ∧
      (Session.start.submit settings source).transcript = "7\n" ++ ("ERROR: division by zero: 1 / 0" ++ "\n") ∧
      (run settings "a.mk" bytes).output = "7\n" ++ ("ERROR: division by zero: 1 / 0" ++ (" (in 'a.mk')") ++ "\n") ∧
      (run settings "a.mk" bytes).code = 1 := by
  let settings : Settings := ⟨false, 20⟩
  let source := "puts(7); 1 / 0"
  let bytes := source.toList.map Char.toNat
  have hsource : decode bytes = .ok source := by
    have htext : (decode bytes).toOption = some source := by decide +kernel
    cases hdecode : decode bytes with
    | error f =>
      rw [hdecode] at htext
      cases htext
    | ok text =>
      rw [hdecode] at htext
      cases htext
      rfl
  have hfault : (Session.start.submit settings source).verdict.fault? = some (.divisionByZero 1) := by decide +kernel
  have houtput : (Session.start.submit settings source).output = "7\n" := by decide +kernel
  obtain ⟨id, hverdict⟩ := Verdict.eq_of_fault? hfault
  have hdepth : (Session.start.submit settings source).verdict ≠ .overflow := by
    rw [hverdict]
    nofun
  obtain ⟨⟨hcode, -⟩, -, hshows, -⟩ := run_agrees settings "a.mk" hsource hdepth
  obtain ⟨htranscript, hshown⟩ := hshows id _ hverdict
  rw [houtput] at htranscript hshown
  exact ⟨settings, bytes, source, hsource, hdepth, houtput, htranscript, hshown, hcode.2 (.inr ⟨id, _, hverdict⟩)⟩

end Script

end Monkey
