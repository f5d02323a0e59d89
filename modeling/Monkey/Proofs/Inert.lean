import Monkey.Proofs.Evaluation
import Monkey.Session.Dialogue
/-!
# Lines that leave no mark

Some lines of a dialogue are answered without any effect on what follows: an empty line, a question about the session,
and a text that is not evaluated because it has diagnostics.  A dialogue is told in two parts, up to a line and from it
on: the first part either ends the dialogue or hands a session on (`leaves_or_reaches`), and an inert line hands on the
very session that it was given (`answer_inert`).  So an inert line can be taken out of a dialogue, and nothing is missing
then but its own prompt and answer (`run_without_inert`).
-/
namespace Monkey.Dialogue

/-- A line that asks for nothing but an answer: blank characters at its ends aside it is empty, or asks for the
environment, for help or for a rendering, or it is a text with diagnostics. -/
def Inert (line : List Char) : Prop :=
  let text := Text.trim line
  text = [] ∨ text = ":env".toList ∨ text = ":help".toList ∨ parseCommand <+: text ∨
    (parse (String.ofList text)).errors ≠ []

instance : DecidablePred Inert := fun _ => inferInstanceAs (Decidable (_ ∨ _ ∨ _ ∨ _ ∨ _))

/-- A request that neither ends the dialogue nor has anything evaluated. -/
def Request.Inert : Request → Prop
  | .leave => False
  | .submit source => (Monkey.parse source).errors ≠ []
  | _ => True

variable {settings : Settings} {session mid : Session} {line : List Char} {pre : List (List Char)} {shown : String}

/-! ## One line -/

theorem not_inert_exit : ¬Inert "exit".toList := by decide +kernel

/-- An inert line makes an inert request; the word that ends a dialogue is a well-formed text. -/
theorem Request.inert_ofLine (h : Dialogue.Inert line) : (Request.ofLine line).Inert := by
  have hexit : Text.trim line ≠ "exit".toList := by
    intro he
    refine not_inert_exit ?_
    unfold Dialogue.Inert at h ⊢
    rw [he] at h
    exact h
  unfold Dialogue.Inert at h
  unfold Request.ofLine
  generalize Text.trim line = text at h hexit
  simp only [hexit, if_false]
  split
  · trivial
  split
  · trivial
  split
  · trivial
  split
  · trivial
  · rename_i hempty hparse henv hhelp
    obtain h | h | h | h | h := h
    · exact absurd (List.isEmpty_iff.mpr h) hempty
    · exact absurd h henv
    · exact absurd h hhelp
    · exact absurd (List.isPrefixOf_iff_prefix.mpr h) hparse
    · exact h

/-- After an inert line the session is what it was before it. -/
theorem answer_inert (h : Inert line) : (answer settings session line).session? = some session := by
  have hr := Request.inert_ofLine h
  unfold answer
  cases hl : Request.ofLine line with
  | leave => rw [hl] at hr; exact hr.elim
  | submit source =>
    rw [hl] at hr
    simp only [submit, Session.submit_of_errors session settings hr]
  | nothing => rfl
  | parse source => rfl
  | environment => rfl
  | help => rfl

/-! ## Many lines -/

/-- A dialogue is still open after some lines: this has been shown, and this is the session. -/
inductive Reaches (settings : Settings) : Session → List (List Char) → String → Session → Prop where
  | start (session : Session) : Reaches settings session [] "" session
  | line {session next mid : Session} {line : List Char} {rest : List (List Char)} {shown : String} :
      (answer settings session line).session? = some next → Reaches settings next rest shown mid →
      Reaches settings session (line :: rest) (prompt ++ (answer settings session line).output ++ shown) mid

theorem run_cons_of_some {next : Session} (h : (answer settings session line).session? = some next)
    (rest : List (List Char)) : run settings session (line :: rest) =
      (prompt ++ (answer settings session line).output ++ (run settings next rest).1, (run settings next rest).2) := by
  rw [run]
  cases ha : answer settings session line with
  | mk output session? =>
    rw [ha] at h
    obtain rfl : session? = some next := h
    rfl

theorem run_cons_of_none (h : (answer settings session line).session? = none) (rest : List (List Char)) :
    run settings session (line :: rest) = (prompt ++ (answer settings session line).output, session) := by
  rw [run]
  cases ha : answer settings session line with
  | mk output session? =>
    rw [ha] at h
    obtain rfl : session? = none := h
    rfl

/-- An open dialogue goes on from the session that it has reached. -/
theorem Reaches.run_append (h : Reaches settings session pre shown mid) (rest : List (List Char)) :
    run settings session (pre ++ rest) = (shown ++ (run settings mid rest).1, (run settings mid rest).2) := by
  induction h with
  | start session => simp
  | line ha _ ih =>
    rw [List.cons_append, run_cons_of_some ha, ih]
    simp only [String.append_assoc]

/-- Either the lines end the dialogue, whatever follows them, or it is still open after them. -/
theorem leaves_or_reaches (settings : Settings) : ∀ (session : Session) (pre : List (List Char)),
    (∃ shown final, ∀ rest, run settings session (pre ++ rest) = (shown, final)) ∨
      ∃ shown mid, Reaches settings session pre shown mid
  | session, [] => .inr ⟨"", session, .start session⟩
  | session, line :: pre => by
    cases ha : (answer settings session line).session? with
    | none => exact .inl ⟨_, _, fun rest => run_cons_of_none ha (pre ++ rest)⟩
    | some next =>
      obtain ⟨shown, final, h⟩ | ⟨shown, mid, h⟩ := leaves_or_reaches settings next pre
      · refine .inl ⟨prompt ++ (answer settings session line).output ++ shown, final, fun rest => ?_⟩
        rw [List.cons_append, run_cons_of_some ha, h rest]
      · exact .inr ⟨_, mid, .line ha h⟩

/-- **An inert line is isolated.**  Either the lines before it end the dialogue, and it is never read; or the dialogue is
open when it is read.  Then what is shown with it is what is shown without it, with its own prompt and its own answer in
between; and either way the session at the end is the same. -/
theorem run_without_inert (settings : Settings) (session : Session) (pre : List (List Char)) (line : List Char)
    (post : List (List Char)) (h : Inert line) :
    (∃ shown final, run settings session (pre ++ post) = (shown, final) ∧
      run settings session (pre ++ line :: post) = (shown, final)) ∨
    ∃ before mid after final, Reaches settings session pre before mid ∧ run settings mid post = (after, final) ∧
      run settings session (pre ++ post) = (before ++ after, final) ∧
      run settings session (pre ++ line :: post) =
        (before ++ (prompt ++ (answer settings mid line).output) ++ after, final) := by
  obtain ⟨shown, final, hleft⟩ | ⟨before, mid, hmid⟩ := leaves_or_reaches settings session pre
  · exact .inl ⟨shown, final, hleft post, hleft (line :: post)⟩
  · refine .inr ⟨before, mid, _, _, hmid, rfl, hmid.run_append post, ?_⟩
    rw [hmid.run_append, run_cons_of_some (answer_inert h), ← String.append_assoc]

/-- A line whose surviving statement would print is dropped between a binding and a use of it. -/
theorem run_without_inert_statement :
    Inert "  let b = ; puts(a) ".toList ∧
    ((∃ shown final,
      run .default .start (["let a = 1".toList] ++ ["a".toList]) = (shown, final) ∧
      run .default .start (["let a = 1".toList] ++ "  let b = ; puts(a) ".toList :: ["a".toList]) = (shown, final)) ∨
    ∃ before mid after final, Reaches .default .start ["let a = 1".toList] before mid ∧
      run .default mid ["a".toList] = (after, final) ∧
      run .default .start (["let a = 1".toList] ++ ["a".toList]) = (before ++ after, final) ∧
      run .default .start (["let a = 1".toList] ++ "  let b = ; puts(a) ".toList :: ["a".toList]) =
        (before ++ (prompt ++ (answer .default mid "  let b = ; puts(a) ".toList).output) ++ after, final)) :=
  have h : Inert "  let b = ; puts(a) ".toList := by decide +kernel
  ⟨h, run_without_inert .default .start ["let a = 1".toList] _ ["a".toList] h⟩

end Monkey.Dialogue
