import Mathlib.Logic.Relation
import Monkey.Proofs.Tracing
/-!
# Calls in any order

Whatever is asked of a parser, and in whatever order, it is only moved by three steps (`Parser.Step`): the cursor moves on
to the next token, a diagnostic is appended, a mark is left.  Each of them keeps the cursor on a token of the stream and
the number of open braces exact (`Parser.Stands`), also where more braces have been closed than opened, so this is the case
at every moment of every run (`Parser.Passes`).  A call leaves behind it as many rules open as there were before
(`Parser.cursor_and_depth_exact`).
-/
namespace Monkey

/-! ## The tokens of a stream -/

namespace TokenStream

/-- The stream behind so many tokens. -/
def behind (s : TokenStream) : Nat → TokenStream
  | 0 => s
  | k + 1 => (s.behind k).next.2

/-- The tokens in the order in which they are taken; the end token is taken again and again. -/
def token (s : TokenStream) (k : Nat) : Token := (s.behind k).next.1

/-- The tokens before an index. -/
def before (s : TokenStream) (k : Nat) : List Token := (List.range k).map s.token

/-- How many of them open a brace, less how many of them close one. -/
def openBraces (s : TokenStream) (k : Nat) : Int :=
  (s.before k).countP (·.kind = .lbrace) - (s.before k).countP (·.kind = .rbrace)

theorem before_succ (s : TokenStream) (k : Nat) : s.before (k + 1) = s.before k ++ [s.token k] := by
  rw [before, List.range_succ, List.map_append]
  rfl

end TokenStream

theorem braces_eq_count : ∀ ts : List Token,
    braces ts = ts.countP (·.kind = .lbrace) - ts.countP (·.kind = .rbrace)
  | [] => rfl
  | t :: ts => by
    have ih := braces_eq_count ts
    have hcons : braces (t :: ts) = t.kind.braces + braces ts := by rw [← braces_singleton, ← braces_append]; rfl
    rw [hcons, ih, List.countP_cons, List.countP_cons]
    cases t.kind <;> simp [Kind.braces] <;> omega

theorem TokenStream.openBraces_eq (s : TokenStream) (k : Nat) : s.openBraces k = braces (s.before k) :=
  (braces_eq_count _).symm

namespace Parser

variable {s : TokenStream} {p q : Parser} {k : Nat}

/-! ## Steps -/

/-- All that is ever done to a parser. -/
inductive Step : Parser → Parser → Prop
  | advance (p : Parser) : Step p p.advance
  | report (p : Parser) (d : Diagnostic) : Step p (p.report d)
  | mark (p : Parser) (m : Mark) : Step p (p.mark m)

/-- On the way from one parser to another, step by step. -/
abbrev Passes : Parser → Parser → Prop := Relation.ReflTransGen Step

theorem Step.length_le (h : Step p q) : q.ahead.length ≤ p.ahead.length := by
  cases h with
  | advance => rw [length_advance]; exact Nat.sub_le _ _
  | report | mark => exact Nat.le_refl _

theorem passes_report (p : Parser) (d : Diagnostic) : p.Passes (p.report d) := .single (.report p d)

instance : Law Passes where
  refl _ := .refl
  trans h h' := h.trans h'
  advance p := .single (.advance p)
  report _ := passes_report _ _
  traced {p q} rule accepted h := .head (.mark p (.enter rule p.cur)) (h.tail (.mark q (.leave rule accepted)))
  length_le h := by
    induction h with
    | refl => exact Nat.le_refl _
    | tail _ hstep ih => exact Nat.le_trans hstep.length_le ih

theorem Step.diagnostics (h : Step p q) : p.diagnostics <+: q.diagnostics := by
  cases h with
  | report => exact List.prefix_append _ _
  | advance | mark => exact List.prefix_rfl

/-- Diagnostics are only appended. -/
theorem Passes.diagnostics (h : p.Passes q) : p.diagnostics <+: q.diagnostics := by
  induction h with
  | refl => exact List.prefix_rfl
  | tail _ hstep ih => exact ih.trans hstep.diagnostics

/-! ## The place of the cursor -/

theorem cur_eq_next (p : Parser) : p.cur = p.toTokenStream.next.1 := by
  unfold cur TokenStream.next
  cases p.ahead <;> rfl

theorem toTokenStream_advance (p : Parser) : p.advance.toTokenStream = p.toTokenStream.next.2 := by
  obtain ⟨⟨ahead, endPos⟩, depth, diagnostics, marks⟩ := p
  cases ahead <;> rfl

/-- The cursor has `k` tokens of the stream behind it, and has counted their braces. -/
structure Stands (s : TokenStream) (k : Nat) (p : Parser) : Prop where
  stream : p.toTokenStream = s.behind k
  depth : p.depth = braces (s.before k)

theorem stands_ofStream (s : TokenStream) : (ofStream s).Stands s 0 := ⟨rfl, rfl⟩

theorem Stands.cur (h : Stands s k p) : p.cur = s.token k := by
  rw [cur_eq_next, h.stream, TokenStream.token]

theorem Stands.advance (h : Stands s k p) : Stands s (k + 1) p.advance where
  stream := by rw [toTokenStream_advance, h.stream, TokenStream.behind]
  depth := by rw [depth_advance, h.depth, h.cur, s.before_succ, braces_append, braces_singleton]

theorem Stands.step (h : Stands s k p) (hstep : Step p q) : ∃ k', Stands s k' q := by
  cases hstep with
  | advance => exact ⟨k + 1, h.advance⟩
  | report | mark => exact ⟨k, h.stream, h.depth⟩

theorem Stands.passes (h : Stands s k p) (hpq : p.Passes q) : ∃ k', Stands s k' q := by
  induction hpq with
  | refl => exact ⟨k, h⟩
  | tail _ hstep ih =>
    obtain ⟨j, hj⟩ := ih
    exact hj.step hstep

/-- What a parser sees of its stream: the token under the cursor and the one behind it, and how many braces are open
before either. -/
structure At (s : TokenStream) (k : Nat) (p : Parser) : Prop where
  cur : p.cur = s.token k
  peek : p.peek = s.token (k + 1)
  depth : p.depth = s.openBraces k
  peekDepth : p.peekDepth = s.openBraces (k + 1)

theorem Stands.at (h : Stands s k p) : At s k p where
  cur := h.cur
  peek := h.advance.cur
  depth := by rw [s.openBraces_eq, h.depth]
  peekDepth := by rw [s.openBraces_eq, ← h.advance.depth]; rfl

/-! ## Calls -/

/-- How many rules are open, if they are traced: so deep is the next line of the trace (`Trace.lines_append`). -/
def traceDepth (p : Parser) (debug : Bool) : Nat := if debug then Mark.openAfter 0 p.marks.reverse else 0

theorem Encloses.traceDepth_eq (h : p.Encloses q) (debug : Bool) : q.traceDepth debug = p.traceDepth debug := by
  obtain ⟨ms, hms, hbalanced⟩ := h.marks
  rw [traceDepth, hms, Mark.openAfter_append, hbalanced.openAfter_eq, traceDepth]

/-- The parser behind some calls, one after the other, whatever they give. -/
def after (p : Parser) (calls : List Request) : Parser := calls.foldl (fun p r => (p.run r.rule).2) p

/-- What a call has done when it comes to its end. -/
structure Serves (p q : Parser) : Prop where
  passes : p.Passes q
  diagnostics : p.diagnostics <+: q.diagnostics
  traceDepth : ∀ debug, q.traceDepth debug = p.traceDepth debug

/-- Every call comes to its end within the parser's budget. -/
theorem Request.serves_rule (r : Request) (p : Parser) :
    (r.rule p.budget p).Holds (fun _ q => p.Serves q) p.Serves False := by
  have hserves {q : Parser} (h : p.Passes q ∧ p.Encloses q) : p.Serves q := ⟨h.1, h.1.diagnostics, h.2.traceDepth_eq⟩
  exact ((r.keeps_rule passes_report p).and (r.keeps_rule encloses_report p)).imp (fun _ _ => hserves)
    (fun _ => hserves) fun h => h.1

theorem Request.passes_run (r : Request) (p : Parser) : p.Passes (p.run r.rule).2 := by
  have h := r.serves_rule p
  unfold run
  cases hrun : r.rule p.budget p with
  | done a q => exact (h.of_done hrun).passes
  | malformed q => exact (h.of_malformed hrun).passes
  | exhausted => exact .refl

theorem passes_after (p : Parser) (calls : List Request) : p.Passes (p.after calls) := by
  induction calls generalizing p with
  | nil => exact .refl
  | cons r calls ih => exact (r.passes_run p).trans (ih (p.run r.rule).2)

/-- **The cursor and the depths are exact.**  After any calls, and at any moment of a further one, the cursor is on a
token of the stream with the next one behind it, and the two depths are those of the braces before either.  Whatever is
called there comes to its end, has only appended diagnostics, and leaves as many traced rules open as there were. -/
theorem cursor_and_depth_exact (s : TokenStream) (calls : List Request) {p : Parser}
    (hp : ((ofStream s).after calls).Passes p) :
    (∃ k, p.At s k) ∧ ∀ r : Request, (r.rule p.budget p).Holds (fun _ q => p.Serves q) p.Serves False := by
  obtain ⟨k, hk⟩ := (stands_ofStream s).passes ((passes_after _ calls).trans hp)
  exact ⟨⟨k, hk.at⟩, fun r => r.serves_rule p⟩

/-- Two braces that nothing has opened: a conditional is asked for on the second of them. -/
theorem cursor_and_depth_exact_stray :
    ((ofStream (.ofSource "\x7d \x7d if \x7b")).after [.advance, .cond]).depth = -1 ∧
      ((ofStream (.ofSource "\x7d \x7d if \x7b")).after [.advance, .cond]).peekDepth = -2 ∧
      ((ofStream (.ofSource "\x7d \x7d if \x7b")).after [.advance, .cond]).diagnostics = [.expected .lparen .ifWord] ∧
      ∃ k, At (.ofSource "\x7d \x7d if \x7b") k ((ofStream (.ofSource "\x7d \x7d if \x7b")).after [.advance, .cond]) :=
  ⟨by decide +kernel, by decide +kernel, by decide +kernel, (cursor_and_depth_exact _ _ .refl).1⟩

end Parser

end Monkey
