import Monkey.Proofs.Phrases
/-!
# Two runs side by side

A run over some tokens, and a run over the same tokens that goes on behind them, has found something wrong before, and
may have more budget.  The two stay side by side (`Frame.Twin`) as long as the first never looks behind its last token.
If the tokens end on a semicolon outside all braces (`Parser.Sealed`), then no rule and no recovery looks further than
that semicolon.
-/
namespace Monkey

namespace Parser

variable {p : Parser}

/-- The tokens ahead end on a semicolon outside all braces, and no brace is closed that is not open. -/
structure Sealed (p : Parser) : Prop where
  last : ∃ ts t, p.ahead = ts ++ [t] ∧ t.kind = .semicolon
  noEnd : ∀ t ∈ p.ahead, t.kind ≠ .eof
  nested : ∀ us, us <+: p.ahead → 0 ≤ p.depth + braces us
  balanced : p.depth + braces p.ahead = 0

theorem Sealed.depth_nonneg (h : p.Sealed) : 0 ≤ p.depth := by
  have := h.nested [] (List.nil_prefix)
  simpa [braces] using this

theorem Sealed.ahead_ne (h : p.Sealed) : p.ahead ≠ [] := by
  obtain ⟨ts, t, hp, -⟩ := h.last
  simp [hp]

/-- The cursor is on the last semicolon, or the next token is ahead as well. -/
theorem Sealed.cases (h : p.Sealed) :
    (p.ahead.tail = [] ∧ p.cur.kind = .semicolon ∧ p.depth = 0) ∨ (p.ahead.tail ≠ [] ∧ p.advance.Sealed) := by
  obtain ⟨ts, t, hp, ht⟩ := h.last
  cases ts with
  | nil =>
    have hcur : p.cur = t := cur_of_ahead hp
    have hb := h.balanced
    rw [hp, List.nil_append, braces_singleton, ht] at hb
    refine .inl ⟨by rw [hp]; rfl, hcur ▸ ht, by simpa [Kind.braces] using hb⟩
  | cons u ts =>
    have hcur : p.cur = u := cur_of_ahead hp
    have hcons : ∀ us, p.advance.depth + braces us = p.depth + braces (u :: us) := fun us => by
      rw [depth_advance, hcur, ← List.singleton_append, braces_append, braces_singleton]; omega
    have htail : p.advance.ahead = ts ++ [t] := by rw [ahead_advance, hp]; rfl
    have hall : p.ahead = u :: p.advance.ahead := by rw [hp, htail]; rfl
    refine .inr ⟨by rw [hp]; simp, ⟨ts, t, htail, ht⟩, fun v hv => h.noEnd v (hall ▸ .tail _ hv), fun us hus => ?_, ?_⟩
    · rw [hcons]
      exact h.nested _ (hall ▸ (List.cons_prefix_cons.2 ⟨rfl, hus⟩))
    · rw [hcons, ← hall]
      exact h.balanced

/-- A place where the skipping goes on has a next token. -/
theorem tail_ne_of_isResumption {d : Int} (h : p.isResumption d = false) : p.ahead.tail ≠ [] := by
  intro htail
  have hpeek : p.peek.kind = .eof := cur_of_ahead_nil (p := p.advance) htail
  simp [isResumption, hpeek] at h

/-- Recovery, one token at a time. -/
theorem resume_eq (p : Parser) (d : Int) :
    p.resume d = if p.isResumption d = true then p else p.advance.resume d := by
  cases hp : p.ahead with
  | nil =>
    have hstop : p.isResumption d = true := by simp [isResumption, cur_of_ahead_nil hp]
    rw [if_pos hstop, resume, hp]
    rfl
  | cons t ts =>
    rw [resume, hp, List.length_cons, resumeWithin, resume, ahead_advance, hp, List.tail_cons]

end Parser

open Monkey.Parser

/-- What surrounds the tokens of a run: the diagnostics found before, the tokens behind (`none` if the run ends with the
text, and `some` if it ends on a semicolon), and the place of the end. -/
structure Frame where
  front : List Diagnostic
  behind : Option (List Token)
  endPos : Pos

namespace Frame

variable {f : Frame} {p p' q q' : Parser}

/-- The run on `p'` is the run on `p`, with what surrounds it. -/
structure Twin (f : Frame) (p p' : Parser) : Prop where
  ahead : p'.ahead = p.ahead ++ f.behind.getD []
  depth : p'.depth = p.depth
  diagnostics : p'.diagnostics = f.front ++ p.diagnostics
  endPos : p'.endPos = f.endPos

/-- The token under the cursor belongs to the run. -/
def Safe (f : Frame) (p : Parser) : Prop :=
  match f.behind with
  | none => p.endPos = f.endPos
  | some _ => p.Sealed

/-- The next token belongs to the run as well. -/
def Inside (f : Frame) (p : Parser) : Prop := f.Safe p ∧ p.cur.kind ≠ .semicolon

/-- A semicolon is not the last of the run as long as braces are open. -/
def Deep (f : Frame) (p : Parser) : Prop := f.behind = none ∨ 0 < p.depth

theorem Safe.cases (h : f.Safe p) :
    (f.behind = none ∧ p.endPos = f.endPos) ∨ (f.behind ≠ none ∧ p.Sealed) := by
  unfold Safe at h
  cases hb : f.behind with
  | none => rw [hb] at h; exact .inl ⟨rfl, h⟩
  | some ts => rw [hb] at h; exact .inr ⟨by simp, h⟩

theorem Safe.of_none (hb : f.behind = none) (h : p.endPos = f.endPos) : f.Safe p := by
  unfold Safe; rw [hb]; exact h

theorem Safe.of_some (hb : f.behind ≠ none) (h : p.Sealed) : f.Safe p := by
  unfold Safe
  cases hf : f.behind with
  | none => exact absurd hf hb
  | some ts => exact h

theorem Safe.mark (h : f.Safe p) (m : Mark) : f.Safe (p.mark m) := by
  rcases h.cases with ⟨hb, he⟩ | ⟨hb, hs⟩
  · exact .of_none hb he
  · exact .of_some hb ⟨hs.last, hs.noEnd, hs.nested, hs.balanced⟩

theorem Safe.report (h : f.Safe p) (d : Diagnostic) : f.Safe (p.report d) := by
  rcases h.cases with ⟨hb, he⟩ | ⟨hb, hs⟩
  · exact .of_none hb he
  · exact .of_some hb ⟨hs.last, hs.noEnd, hs.nested, hs.balanced⟩

theorem Safe.advance (h : f.Safe p) (hne : f.behind = none ∨ p.ahead.tail ≠ []) : f.Safe p.advance := by
  rcases h.cases with ⟨hb, he⟩ | ⟨hb, hs⟩
  · exact .of_none hb he
  · rcases hs.cases with ⟨htail, -, -⟩ | ⟨-, hadv⟩
    · exact absurd htail (hne.resolve_left hb)
    · exact .of_some hb hadv

/-- Below an open brace the run goes on behind every token. -/
theorem Safe.advance_of_depth (h : f.Safe p) (hd : f.Deep p.advance) : f.Safe p.advance := by
  rcases h.cases with ⟨hb, -⟩ | ⟨hb, hs⟩
  · exact h.advance (.inl hb)
  · have hd := hd.resolve_left hb
    rcases hs.cases with ⟨-, hk, hd0⟩ | ⟨hne, -⟩
    · rw [depth_advance, hk, hd0] at hd
      exact absurd hd (by decide)
    · exact h.advance (.inr hne)

theorem Inside.advance (h : f.Inside p) : f.Safe p.advance := by
  rcases h.1.cases with ⟨hb, -⟩ | ⟨hb, hs⟩
  · exact h.1.advance (.inl hb)
  · rcases hs.cases with ⟨-, hk, -⟩ | ⟨hne, -⟩
    · exact absurd hk h.2
    · exact h.1.advance (.inr hne)

theorem Inside.mark (h : f.Inside p) (m : Mark) : f.Inside (p.mark m) := ⟨h.1.mark m, h.2⟩

theorem Safe.depth_nonneg (h : f.Safe p) : f.behind = none ∨ 0 ≤ p.depth := by
  rcases h.cases with ⟨hb, -⟩ | ⟨-, hs⟩
  · exact .inl hb
  · exact .inr hs.depth_nonneg

/-! ## Twins move alike -/

theorem Twin.advance_of (h : f.Twin p p') (hcur : p'.cur = p.cur) (hne : p.ahead ≠ [] ∨ f.behind = none) :
    f.Twin p.advance p'.advance := by
  refine ⟨?_, ?_, h.diagnostics, h.endPos⟩
  · rw [ahead_advance, ahead_advance, h.ahead]
    rcases hne with hne | hb
    · exact List.tail_append_of_ne_nil hne
    · rw [hb]; simp
  · rw [depth_advance, depth_advance, hcur, h.depth]

theorem Twin.cur (h : f.Twin p p') (hs : f.Safe p) : p'.cur = p.cur := by
  unfold Parser.cur TokenStream.eof
  rw [h.ahead, h.endPos]
  rcases hs.cases with ⟨hb, he⟩ | ⟨-, hs⟩
  · rw [hb, he, Option.getD_none, List.append_nil]
  · cases hp : p.ahead with
    | nil => exact absurd hp hs.ahead_ne
    | cons t ts => rfl

theorem Twin.advance (h : f.Twin p p') (hs : f.Safe p) : f.Twin p.advance p'.advance := by
  refine h.advance_of (h.cur hs) ?_
  rcases hs.cases with ⟨hb, -⟩ | ⟨-, hs⟩
  · exact .inr hb
  · exact .inl hs.ahead_ne

theorem Twin.peek (h : f.Twin p p') (hs : f.Inside p) : p'.peek = p.peek :=
  (h.advance hs.1).cur hs.advance

theorem Twin.report (h : f.Twin p p') (d : Diagnostic) : f.Twin (p.report d) (p'.report d) :=
  ⟨h.ahead, h.depth, by simp only [Parser.report, h.diagnostics, List.append_assoc], h.endPos⟩

theorem Twin.mark (h : f.Twin p p') (m m' : Mark) : f.Twin (p.mark m) (p'.mark m') :=
  ⟨h.ahead, h.depth, h.diagnostics, h.endPos⟩

/-- Twins can leave a malformed statement at the same places. -/
theorem Twin.isResumption {d : Int} (h : f.Twin p p') (hs : f.Safe p) (hd : f.behind = none ∨ 0 ≤ d) :
    p'.isResumption d = p.isResumption d := by
  have hcur := h.cur hs
  have hpeekDepth : p'.peekDepth = p.peekDepth := by unfold peekDepth; rw [h.depth, hcur]
  have hsame : p'.peek = p.peek → p'.isResumption d = p.isResumption d := fun hpeek => by
    unfold Parser.isResumption
    rw [hcur, hpeek, h.depth, hpeekDepth]
  rcases hs.cases with ⟨hb, -⟩ | ⟨hb, hsealed⟩
  · exact hsame ((h.advance hs).cur (hs.advance (.inl hb)))
  · rcases hsealed.cases with ⟨-, hk, hd0⟩ | ⟨hne, -⟩
    · have hle := hd.resolve_left hb
      simp [Parser.isResumption, hcur, hk, h.depth, hd0, hle]
    · exact hsame ((h.advance hs).cur (hs.advance (.inr hne)))

/-- **Recovery does not skip the semicolon that ends the run.** -/
theorem Twin.resume {d : Int} (hd : f.behind = none ∨ 0 ≤ d) : ∀ (p p' : Parser), f.Twin p p' → f.Safe p →
    f.Twin (p.resume d) (p'.resume d) ∧ f.Safe (p.resume d)
  | p, p', h, hs => by
    rw [resume_eq p, resume_eq p', h.isResumption hs hd]
    by_cases hstop : p.isResumption d = true
    · rw [if_pos hstop, if_pos hstop]
      exact ⟨h, hs⟩
    · rw [if_neg hstop, if_neg hstop]
      have hne := tail_ne_of_isResumption (Bool.eq_false_iff.2 hstop)
      have hlt : p.advance.ahead.length < p.ahead.length := by
        have := List.length_pos_iff.2 hne
        rw [ahead_advance]
        rw [List.length_tail] at *; omega
      exact Twin.resume hd p.advance p'.advance (h.advance hs) (hs.advance (.inr hne))
  termination_by p => p.ahead.length

end Frame

/-- The second outcome is the first one, at the twin of its parser; a result leaves the parser in `T`. -/
def Outcome.Mirrors {α : Type} (f : Frame) (T : Parser → Prop) : Outcome α → Outcome α → Prop
  | .done a q, o => T q ∧ ∃ q', o = .done a q' ∧ f.Twin q q'
  | .malformed q, o => f.Safe q ∧ ∃ q', o = .malformed q' ∧ f.Twin q q'
  | .exhausted, _ => True

namespace Parse

variable {α β : Type} {f : Frame} {S T : Parser → Prop} {p p' : Parser}

theorem mirrors_bind {x x' : Parse α} {g g' : α → Parse β} (hx : (x p).Mirrors f S (x' p'))
    (hg : ∀ a q q', S q → f.Twin q q' → (g a q).Mirrors f T (g' a q')) :
    ((x >>= g) p).Mirrors f T ((x' >>= g') p') := by
  show (andThen x g p).Mirrors f T (andThen x' g' p')
  unfold andThen
  cases hxp : x p with
  | done a q =>
    rw [hxp] at hx
    obtain ⟨hq, q', hx', htwin⟩ := hx
    rw [hx']
    exact hg a q q' hq htwin
  | malformed q =>
    rw [hxp] at hx
    obtain ⟨hq, q', hx', htwin⟩ := hx
    rw [hx']
    exact ⟨hq, q', rfl, htwin⟩
  | exhausted => trivial

theorem mirrors_attempt {x x' : Parse α} {g g' : Option α → Parse β} (hx : (x p).Mirrors f S (x' p'))
    (hd : ∀ a q q', x p = .done a q → S q → f.Twin q q' → (g (some a) q).Mirrors f T (g' (some a) q'))
    (hm : ∀ q q', x p = .malformed q → f.Safe q → f.Twin q q' → (g none q).Mirrors f T (g' none q')) :
    ((attempt x >>= g) p).Mirrors f T ((attempt x' >>= g') p') := by
  show (andThen (attempt x) g p).Mirrors f T (andThen (attempt x') g' p')
  unfold andThen attempt
  cases hxp : x p with
  | done a q =>
    rw [hxp] at hx
    obtain ⟨hq, q', hx', htwin⟩ := hx
    rw [hx']
    exact hd a q q' hxp hq htwin
  | malformed q =>
    rw [hxp] at hx
    obtain ⟨hq, q', hx', htwin⟩ := hx
    rw [hx']
    exact hm q q' hxp hq htwin
  | exhausted => trivial

theorem mirrors_traced {rule : Rule} {x x' : Parse α} (hT : ∀ q m, T q → T (Parser.mark q m))
    (hx : (x (p.mark (.enter rule p.cur))).Mirrors f T (x' (p'.mark (.enter rule p'.cur)))) :
    (traced rule x p).Mirrors f T (traced rule x' p') := by
  unfold traced
  cases hxp : x (p.mark (.enter rule p.cur)) with
  | done a q =>
    rw [hxp] at hx
    obtain ⟨hq, q', hx', htwin⟩ := hx
    rw [hx']
    exact ⟨hT q _ hq, _, rfl, htwin.mark _ _⟩
  | malformed q =>
    rw [hxp] at hx
    obtain ⟨hq, q', hx', htwin⟩ := hx
    rw [hx']
    exact ⟨hq.mark _, _, rfl, htwin.mark _ _⟩
  | exhausted => trivial

theorem mirrors_refuse (h : f.Twin p p') (hs : f.Safe p) (d : Diagnostic) :
    (refuse d p : Outcome α).Mirrors f T (refuse d p') :=
  ⟨hs.report d, _, rfl, h.report d⟩

theorem mirrors_expect {kind : Kind} {g g' : Unit → Parse β} (h : f.Twin p p') (hs : f.Inside p)
    (hk : kind ≠ .semicolon)
    (hg : p.peek.kind = kind → f.Inside p.advance → f.Twin p.advance p'.advance →
      (g () p.advance).Mirrors f T (g' () p'.advance)) :
    ((expect kind >>= g) p).Mirrors f T ((expect kind >>= g') p') := by
  show (andThen (expect kind) g p).Mirrors f T (andThen (expect kind) g' p')
  unfold andThen expect
  rw [h.peek hs]
  by_cases hp : p.peek.kind = kind
  · rw [if_pos hp, if_pos hp]
    exact hg hp ⟨hs.advance, by rw [cur_advance, hp]; exact hk⟩ (h.advance hs.1)
  · rw [if_neg hp, if_neg hp]
    exact mirrors_refuse h hs.1 _

theorem mirrors_peekIs_bind {kind : Kind} {g g' : Bool → Parse β} (h : f.Twin p p') (hs : f.Inside p)
    (ht : p.peek.kind = kind → (g true p).Mirrors f T (g' true p'))
    (hf : p.peek.kind ≠ kind → (g false p).Mirrors f T (g' false p')) :
    ((peekIs kind >>= g) p).Mirrors f T ((peekIs kind >>= g') p') := by
  show (g (p.peek.kind == kind) p).Mirrors f T (g' (p'.peek.kind == kind) p')
  rw [h.peek hs]
  by_cases hp : p.peek.kind = kind
  · rw [show (p.peek.kind == kind) = true by simpa using hp]; exact ht hp
  · rw [show (p.peek.kind == kind) = false by simpa using hp]; exact hf hp

theorem mirrors_peekIs {kind : Kind} {x x' y y' : Parse β} (h : f.Twin p p') (hs : f.Inside p)
    (hx : p.peek.kind = kind → (x p).Mirrors f T (x' p')) (hy : p.peek.kind ≠ kind → (y p).Mirrors f T (y' p')) :
    ((peekIs kind >>= fun b => if b = true then x else y) p).Mirrors f T
      ((peekIs kind >>= fun b => if b = true then x' else y') p') :=
  mirrors_peekIs_bind h hs hx hy

end Parse

end Monkey
