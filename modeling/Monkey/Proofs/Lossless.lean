import Mathlib.Data.List.Pairwise
import Monkey.Proofs.Lines
import Monkey.Proofs.Roundtrip
/-!
# A scan loses nothing

Where the tokens of a source lie in its text, tabs expanded.  Each takes a stretch of characters, in order and apart
from each other, and what lies between them is white space and comments (`tokenize_lossless`).  What a string literal,
a comment and the line and column of a place are is said here from the text alone, not by the scanner.
-/
namespace Monkey

/-! ## Stretches of a text -/

/-- A stretch of a text: the number of characters before it, and before what follows it. -/
structure Span where
  start : Nat
  stop : Nat
  deriving DecidableEq

namespace Span

/-- The characters of a stretch. -/
def cut (s : Span) (text : List Char) : List Char := (text.take s.stop).drop s.start

def Covers (s : Span) (i : Nat) : Prop := s.start ≤ i ∧ i < s.stop

/-- One stretch ends before the other begins. -/
def Before (s t : Span) : Prop := s.stop ≤ t.start

def Apart (s t : Span) : Prop := s.Before t ∨ t.Before s

theorem Apart.symm {s t : Span} (h : s.Apart t) : t.Apart s := Or.symm h

theorem cut_append (pre text post : List Char) :
    cut ⟨pre.length, pre.length + text.length⟩ (pre ++ text ++ post) = text := by
  have htake : (pre ++ text ++ post).take (pre.length + text.length) = pre ++ text := by
    rw [← List.length_append]
    exact List.take_left
  show ((pre ++ text ++ post).take (pre.length + text.length)).drop pre.length = text
  rw [htake, List.drop_left]

theorem eq_of_cut {s : Span} {text : List Char} {c : Char} (hcut : s.cut text = [c]) (hstop : s.stop ≤ text.length)
    {i : Nat} (hi : i < text.length) (hcovers : s.Covers i) : text[i] = c := by
  have hlength : s.stop - s.start = 1 := by
    have h := congrArg List.length hcut
    rwa [cut, List.length_drop, List.length_take, Nat.min_eq_left hstop] at h
  have hstart : i = s.start := by
    obtain ⟨hle, hlt⟩ := hcovers
    omega
  have h : (s.cut text)[0]? = some text[i] := by
    rw [cut, List.getElem?_drop, Nat.add_zero, ← hstart, List.getElem?_take_of_lt hcovers.2, List.getElem?_eq_getElem hi]
  rw [hcut] at h
  exact (Option.some.inj h).symm

end Span

/-- The place behind a text, counted from its line feeds: the lines before it, and the characters since the last of
them. -/
def Pos.behind (text : List Char) : Pos :=
  ⟨1 + text.count '\n', 1 + (text.reverse.takeWhile (· ≠ '\n')).length⟩

theorem Pos.after_start (text : List Char) : Pos.start.after text = Pos.behind text := by
  -- the last character of the text is the one that is stepped over last
  suffices h : ∀ rev : List Char, Pos.start.after rev.reverse = Pos.behind rev.reverse by
    simpa using h text.reverse
  intro rev
  induction rev with
  | nil => rfl
  | cons c rev ih =>
    rw [List.reverse_cons, Pos.after_append, ih]
    show (Pos.behind rev.reverse).step c = _
    unfold Pos.step Pos.behind
    by_cases hc : c = '\n'
    · subst hc
      simp [List.count_append]
      omega
    · simp [List.count_append, hc]
      omega

/-! ## String literals and comments -/

/-- The written text of a string literal: no quote and no line end stands in it plainly, and a backslash takes any
character but a line feed with it. -/
inductive Written : List Char → Prop
  | nil : Written []
  | escaped {c : Char} {text : List Char} : c ≠ '\n' → Written text → Written ('\\' :: c :: text)
  | plain {c : Char} {text : List Char} : c ∉ ['"', '\\', '\n', '\r'] → Written text → Written (c :: text)

theorem Written.line {text : List Char} (h : Written text) : '\n' ∉ text := by
  induction h with
  | nil => exact List.not_mem_nil
  | escaped hc _ ih => simp [Ne.symm hc, ih]
  | plain hc _ ih =>
    simp only [List.mem_cons, not_or] at hc ⊢
    exact ⟨Ne.symm hc.2.2.1, ih⟩

theorem written_of_stringText : ∀ {text written : List Char}, Piece.stringText? text = some written → Written written
  | [], _, h => by cases h
  | c :: text, written, h => by
    unfold Piece.stringText? at h
    split at h
    · cases h
    · rename_i heq
      cases heq
      cases h
      exact .nil
    · rename_i d tail heq
      cases heq
      split at h
      · cases h
      · rename_i hd
        obtain ⟨w, hw, rfl⟩ := Option.map_eq_some_iff.1 h
        exact .escaped hd (written_of_stringText hw)
    · rename_i d tail hquote _ heq
      cases heq
      split at h
      · cases h
      · rename_i hplain
        obtain ⟨w, hw, rfl⟩ := Option.map_eq_some_iff.1 h
        refine .plain ?_ (written_of_stringText hw)
        simp only [not_or] at hplain
        simpa [hplain] using hquote

/-- The text of a comment behind its slashes: any characters, a line feed only right behind a backslash. -/
inductive Commented : List Char → Prop
  | nil : Commented []
  | carried {text : List Char} : Commented text → Commented ('\\' :: '\n' :: text)
  | plain {c : Char} {text : List Char} : c ≠ '\n' → Commented text → Commented (c :: text)

/-- A comment in front of `rest`: two slashes, and the text up to the end of the source or up to a line feed that no
backslash carries it over. -/
def IsComment (text rest : List Char) : Prop :=
  ∃ body, text = '/' :: '/' :: body ∧ Commented body ∧ (rest = [] ∨ rest.head? = some '\n' ∧ Closed body)

theorem Closed.cons {c : Char} {text : List Char} (h : Closed text) (hc : c ≠ '\\' ∨ text ≠ []) :
    Closed (c :: text) := by
  unfold Closed at *
  cases text with
  | nil => simpa using hc
  | cons d text => rwa [List.getLast?_cons_cons]

theorem commented_commentText : ∀ text : List Char, ∃ rest, text = Piece.commentText text ++ rest ∧
    Commented (Piece.commentText text) ∧ (rest = [] ∨ rest.head? = some '\n' ∧ Closed (Piece.commentText text))
  | [] => ⟨[], rfl, .nil, .inl rfl⟩
  | c :: text => by
    unfold Piece.commentText
    split
    · rename_i heq
      cases heq
    · rename_i tail heq
      cases heq
      obtain ⟨rest, hrest, hbody, hend⟩ := commented_commentText tail
      refine ⟨rest, by simpa using hrest, .carried hbody, hend.imp_right fun h => ⟨h.1, ?_⟩⟩
      exact (h.2.cons (.inl (by decide))).cons (.inr (List.cons_ne_nil _ _))
    · rename_i tail heq
      cases heq
      exact ⟨_, rfl, .nil, .inr ⟨rfl, by decide⟩⟩
    · rename_i d tail hcarry hfeed heq
      cases heq
      obtain ⟨rest, hrest, hbody, hend⟩ := commented_commentText text
      refine ⟨rest, by simpa using hrest, .plain hfeed hbody, hend.imp_right fun h => ⟨h.1, h.2.cons ?_⟩⟩
      -- a backslash at the end would have carried the comment over the line feed
      by_cases hc : c = '\\'
      · refine .inr fun hnil => ?_
        rw [hnil, List.nil_append] at hrest
        cases rest with
        | nil => cases h.1
        | cons d rest =>
          cases h.1
          exact hcarry rest hc hrest
      · exact .inl hc

/-! ## What a piece is -/

/-- What the token of a piece has to do with the characters it takes. -/
def Token.Spans (t : Token) (span : List Char) : Prop :=
  if t.kind = .string then
    ∃ written, span = '"' :: written ++ ['"'] ∧ Written written ∧ '\n' ∉ written ∧
      t.literal = String.ofList (Text.Escape.decode written)
  else span = t.literal.toList

/-- The token of a lexeme at a place; white space and comments have none. -/
def Piece.token? (pos : Pos) : Piece → Option Token
  | lexeme kind _ literal => some ⟨kind, literal, pos⟩
  | _ => none

/-- A piece in front of `rest` is a blank character, a comment that ends there, or the characters of its token. -/
inductive Piece.Fits : Piece → List Char → Prop
  | blank {c : Char} {rest : List Char} : Text.isBlank c = true → Fits (blank c) rest
  | comment {text rest : List Char} : IsComment text rest → Fits (comment text) rest
  | lexeme {kind : Kind} {text rest : List Char} {literal : String} :
      (∀ pos, (Token.mk kind literal pos).Spans text) → Fits (lexeme kind text literal) rest

theorem fits_plain {kind : Kind} (text : List Char) {rest : List Char} (hkind : kind ≠ .string) :
    Piece.Fits (.lexeme kind text (String.ofList text)) rest :=
  .lexeme fun pos => by
    unfold Token.Spans
    rw [if_neg hkind]
    exact String.toList_ofList.symm

theorem ofWord_ne_string (word : String) : Kind.ofWord word ≠ .string := by
  rcases ofWord_cases word with h | h
  · rw [h]; decide
  · exact fun hs => absurd (hs ▸ h) (by decide)

theorem ofChar_ne_string (c : Char) : (Kind.ofChar? c).getD .illegal ≠ .string := by
  unfold Kind.ofChar?
  split <;> decide

theorem fits_ofSymbol (c : Char) (rest behind : List Char) : (Piece.ofSymbol c rest).Fits behind := by
  unfold Piece.ofSymbol
  split
  · exact fits_plain ['=', '='] (by decide)
  · exact fits_plain ['!', '='] (by decide)
  · exact fits_plain [c] (ofChar_ne_string c)

theorem fits_comment {rest behind : List Char}
    (h : '/' :: Piece.commentText ('/' :: rest) ++ behind = '/' :: '/' :: rest) :
    (Piece.comment ('/' :: Piece.commentText ('/' :: rest))).Fits behind := by
  have htext : Piece.commentText ('/' :: rest) = '/' :: Piece.commentText rest :=
    commentText_cons (fun h => absurd h (by decide)) (by decide)
  obtain ⟨tail, htail, hbody, hend⟩ := commented_commentText rest
  simp only [htext, List.cons_append, List.cons.injEq, true_and] at h
  obtain rfl := List.append_cancel_left (h.trans htail)
  rw [htext]
  exact .comment ⟨_, rfl, hbody, hend⟩

theorem fits_first {before : Option Char} {c : Char} {rest behind : List Char}
    (h : (Piece.first before c rest).text ++ behind = c :: rest) : (Piece.first before c rest).Fits behind := by
  unfold Piece.first at h ⊢
  by_cases hblank : Text.isBlank c = true
  · rw [if_pos hblank]
    exact .blank hblank
  rw [if_neg hblank] at h ⊢
  by_cases hslash : c = '/' ∧ rest.head? = some '/'
  · rw [if_pos hslash] at h ⊢
    obtain ⟨rfl, hhead⟩ := hslash
    cases rest with
    | nil => cases hhead
    | cons d rest =>
      cases hhead
      exact fits_comment h
  rw [if_neg hslash] at h ⊢
  by_cases hword : Piece.isWordStart c = true
  · rw [if_pos hword]
    refine fits_plain _ ?_
    split
    · decide
    · exact ofWord_ne_string _
  rw [if_neg hword] at h ⊢
  by_cases hdigit : Text.isDigit c = true
  · rw [if_pos hdigit]
    exact fits_plain _ (by decide)
  rw [if_neg hdigit] at h ⊢
  by_cases hquote : c = '"'
  · rw [if_pos hquote]
    split
    · rename_i written hwritten
      have hw := written_of_stringText hwritten
      exact .lexeme fun pos => ⟨written, rfl, hw, hw.line, rfl⟩
    · exact fits_plain [c] (by decide)
  · rw [if_neg hquote]
    exact fits_ofSymbol c rest behind

/-- Every piece of a text fits in front of the pieces behind it. -/
theorem fits_piecesFrom (text : List Char) : ∀ {before : Option Char} {skip : Nat} {pre post : List Piece}
    {piece : Piece}, piecesFrom before skip text = pre ++ piece :: post → piece.Fits (post.flatMap Piece.text) := by
  induction text with
  | nil =>
    intro before skip pre post piece h
    cases pre <;> cases skip <;> cases h
  | cons c rest ih =>
    intro before skip pre post piece h
    cases skip with
    | succ skip => exact ih h
    | zero =>
      cases pre with
      | nil =>
        have htext := text_piecesFrom (c :: rest) before 0
        injection h with hpiece hpost
        subst hpiece hpost
        exact fits_first htext
      | cons p pre =>
        injection h with _ hrest
        exact ih hrest

/-! ## The layout of the pieces -/

/-- Pieces with the stretches they take, the first of them behind so many characters. -/
def Piece.layout : Nat → List Piece → List (Piece × Span)
  | _, [] => []
  | n, piece :: rest => (piece, ⟨n, n + piece.text.length⟩) :: layout (n + piece.text.length) rest

/-- A piece stands in the layout behind the text of those before it. -/
theorem split_of_mem_layout {q : Piece × Span} : ∀ {n : Nat} {ps : List Piece}, q ∈ Piece.layout n ps →
    ∃ pre post, ps = pre ++ q.1 :: post ∧
      q.2 = ⟨n + (pre.flatMap Piece.text).length, n + (pre.flatMap Piece.text).length + q.1.text.length⟩
  | n, piece :: ps, h => by
    rcases List.mem_cons.1 h with rfl | h
    · exact ⟨[], ps, rfl, rfl⟩
    · obtain ⟨pre, post, hps, hspan⟩ := split_of_mem_layout h
      refine ⟨piece :: pre, post, by rw [hps]; rfl, ?_⟩
      rw [hspan, List.flatMap_cons, List.length_append, Nat.add_assoc n]

theorem layout_ordered : ∀ (n : Nat) (ps : List Piece),
    (Piece.layout n ps).Pairwise fun q r => q.2.Before r.2
  | _, [] => .nil
  | n, piece :: ps => by
    refine .cons (fun q hq => ?_) (layout_ordered _ ps)
    obtain ⟨pre, _, _, hspan⟩ := split_of_mem_layout hq
    rw [hspan]
    exact Nat.le_add_right _ _

/-- No character is left out. -/
theorem layout_covers {i : Nat} : ∀ {n : Nat} {ps : List Piece}, n ≤ i → i < n + (ps.flatMap Piece.text).length →
    ∃ q ∈ Piece.layout n ps, q.2.Covers i
  | n, [], hle, hlt => absurd hlt (Nat.not_lt.2 hle)
  | n, piece :: ps, hle, hlt => by
    rw [List.flatMap_cons, List.length_append, ← Nat.add_assoc] at hlt
    by_cases hi : i < n + piece.text.length
    · exact ⟨_, List.mem_cons_self, hle, hi⟩
    · obtain ⟨q, hq, hcovers⟩ := layout_covers (Nat.not_lt.1 hi) hlt
      exact ⟨q, List.mem_cons_of_mem _ hq, hcovers⟩

/-- The tokens of a text with the stretches they take. -/
def placed (text : List Char) : List (Token × Span) :=
  (Piece.layout 0 (pieces text)).filterMap fun q => (q.1.token? (.behind (text.take q.2.start))).map (·, q.2)

/-- The stretches that comments take. -/
def comments (text : List Char) : List Span :=
  (Piece.layout 0 (pieces text)).filterMap fun q => match q.1 with
    | .comment _ => some q.2
    | _ => none

/-- A token is placed where the text before it ends. -/
theorem tokensFrom_layout : ∀ (before : List Char) (ps : List Piece), Piece.tokensFrom (Pos.start.after before) ps =
    (Piece.layout before.length ps).filterMap fun q =>
      q.1.token? (.behind ((before ++ ps.flatMap Piece.text).take q.2.start))
  | _, [] => rfl
  | before, piece :: ps => by
    have htail := tokensFrom_layout (before ++ piece.text) ps
    rw [Pos.after_append, List.length_append, List.append_assoc, ← List.flatMap_cons] at htail
    have hhead : (before ++ (piece :: ps).flatMap Piece.text).take before.length = before := List.take_left
    rw [Piece.layout, List.filterMap_cons, ← htail, hhead, ← Pos.after_start]
    cases piece <;> rfl

theorem tokenize_placed (source : String) :
    (TokenStream.ofSource source).ahead = (placed (Text.Tab.expand source.toList)).map Prod.fst := by
  have h := tokensFrom_layout [] (pieces (Text.Tab.expand source.toList))
  rw [List.nil_append, text_pieces] at h
  refine h.trans ?_
  rw [placed, List.map_filterMap]
  congr 1
  funext q
  cases q.1.token? (.behind ((Text.Tab.expand source.toList).take q.2.start)) <;> rfl

/-- What a stretch of the layout is in the text: what its piece says, in front of what follows. -/
theorem layout_fits {text : List Char} {q : Piece × Span} (h : q ∈ Piece.layout 0 (pieces text)) :
    q.2.cut text = q.1.text ∧ q.1.Fits (text.drop q.2.stop) ∧ q.2.start < q.2.stop ∧ q.2.stop ≤ text.length := by
  obtain ⟨pre, post, hps, hspan⟩ := split_of_mem_layout h
  rw [Nat.zero_add] at hspan
  have htext : text = pre.flatMap Piece.text ++ q.1.text ++ post.flatMap Piece.text := by
    rw [← text_pieces text, hps, List.flatMap_append, List.flatMap_cons, List.append_assoc]
  have hpiece : 0 < q.1.text.length := by
    obtain ⟨before, c, rest, hfirst⟩ := mem_piecesFrom text none 0 q.1 (by
      show q.1 ∈ pieces text
      rw [hps]
      exact List.mem_append_right _ List.mem_cons_self)
    obtain ⟨w, hw, _⟩ := text_first before c rest
    rw [hfirst, hw]
    exact Nat.succ_pos _
  have hdrop : text.drop q.2.stop = post.flatMap Piece.text := by
    rw [hspan, htext, ← List.length_append]
    exact List.drop_left
  refine ⟨?_, ?_, ?_, ?_⟩
  · rw [hspan, htext]
    exact Span.cut_append _ _ _
  · rw [hdrop]
    exact fits_piecesFrom text hps
  · rw [hspan]
    exact Nat.lt_add_of_pos_right hpiece
  · rw [hspan, htext, List.length_append, List.length_append]
    exact Nat.le_add_right _ _

/-! ## Nothing but white space and comments is left -/

/-- Tokens and comments at stretches of a text that lose nothing of it. -/
structure Lossless (text : List Char) (tokens : List (Token × Span)) (comments : List Span) : Prop where
  ordered : tokens.Pairwise fun p q => p.2.Before q.2
  within : ∀ p ∈ tokens, p.2.start < p.2.stop ∧ p.2.stop ≤ text.length
  spans : ∀ p ∈ tokens, p.1.Spans (p.2.cut text)
  pos : ∀ p ∈ tokens, p.1.pos = .behind (text.take p.2.start)
  comment : ∀ s ∈ comments, IsComment (s.cut text) (text.drop s.stop)
  apart : ∀ s ∈ comments, ∀ p ∈ tokens, s.Apart p.2
  rest : ∀ (i : Nat) (h : i < text.length), (∀ p ∈ tokens, ¬ p.2.Covers i) →
    Text.isBlank text[i] = true ∨ ∃ s ∈ comments, s.Covers i

theorem mem_placed {text : List Char} {p : Token × Span} (h : p ∈ placed text) : ∃ kind span literal,
    (.lexeme kind span literal, p.2) ∈ Piece.layout 0 (pieces text) ∧
      p.1 = ⟨kind, literal, .behind (text.take p.2.start)⟩ := by
  obtain ⟨⟨piece, s⟩, hq, hp⟩ := List.mem_filterMap.1 h
  obtain ⟨t, ht, rfl⟩ := Option.map_eq_some_iff.1 hp
  cases piece with
  | blank c => cases ht
  | comment span => cases ht
  | lexeme kind span literal =>
    cases ht
    exact ⟨kind, span, literal, hq, rfl⟩

theorem placed_of_mem {text span : List Char} {kind : Kind} {literal : String} {s : Span}
    (h : (.lexeme kind span literal, s) ∈ Piece.layout 0 (pieces text)) :
    (⟨kind, literal, .behind (text.take s.start)⟩, s) ∈ placed text :=
  List.mem_filterMap.2 ⟨_, h, rfl⟩

theorem mem_comments {text : List Char} {s : Span} :
    s ∈ comments text ↔ ∃ span, (.comment span, s) ∈ Piece.layout 0 (pieces text) := by
  constructor
  · intro h
    obtain ⟨⟨piece, s'⟩, hq, hs⟩ := List.mem_filterMap.1 h
    cases piece with
    | blank c => cases hs
    | comment span =>
      cases hs
      exact ⟨span, hq⟩
    | lexeme kind span literal => cases hs
  · rintro ⟨span, h⟩
    exact List.mem_filterMap.2 ⟨_, h, rfl⟩

theorem layout_apart {ps : List Piece} {q r : Piece × Span} (hq : q ∈ Piece.layout 0 ps) (hr : r ∈ Piece.layout 0 ps)
    (hne : q ≠ r) : q.2.Apart r.2 := by
  have hsymm : Std.Symm fun q r : Piece × Span => q ≠ r → q.2.Apart r.2 := ⟨fun _ _ h hne => (h hne.symm).symm⟩
  have hapart : (Piece.layout 0 ps).Pairwise fun q r => q ≠ r → q.2.Apart r.2 :=
    (layout_ordered 0 ps).imp fun h _ => .inl h
  exact hapart.forall_of_forall (fun _ _ hne => absurd rfl hne) hq hr hne

theorem lossless_placed (text : List Char) : Lossless text (placed text) (comments text) where
  ordered := by
    refine List.pairwise_filterMap.2 ((layout_ordered 0 _).imp fun hbefore p hp r hr => ?_)
    obtain ⟨t, _, rfl⟩ := Option.map_eq_some_iff.1 hp
    obtain ⟨u, _, rfl⟩ := Option.map_eq_some_iff.1 hr
    exact hbefore
  within p hp := by
    obtain ⟨kind, span, literal, hq, _⟩ := mem_placed hp
    exact (layout_fits hq).2.2
  spans p hp := by
    obtain ⟨kind, span, literal, hq, ht⟩ := mem_placed hp
    obtain ⟨hcut, hfits, _⟩ := layout_fits hq
    cases hfits with
    | lexeme hspans =>
      rw [hcut, ht]
      exact hspans _
  pos p hp := by
    obtain ⟨kind, span, literal, _, ht⟩ := mem_placed hp
    rw [ht]
  comment s hs := by
    obtain ⟨span, hq⟩ := mem_comments.1 hs
    obtain ⟨hcut, hfits, _⟩ := layout_fits hq
    cases hfits with
    | comment hcomment =>
      rw [hcut]
      exact hcomment
  apart s hs p hp := by
    obtain ⟨span, hq⟩ := mem_comments.1 hs
    obtain ⟨kind, span', literal, hr, _⟩ := mem_placed hp
    exact layout_apart hq hr nofun
  rest i hi hfree := by
    have hlength : ((pieces text).flatMap Piece.text).length = text.length := by rw [text_pieces]
    obtain ⟨⟨piece, s⟩, hq, hcovers⟩ := layout_covers (Nat.zero_le i) (by rwa [Nat.zero_add, hlength])
    cases piece with
    | lexeme kind span literal => exact absurd hcovers (hfree _ (placed_of_mem hq))
    | comment span => exact .inr ⟨s, mem_comments.2 ⟨span, hq⟩, hcovers⟩
    | blank c =>
      obtain ⟨hcut, hfits, _, hstop⟩ := layout_fits hq
      cases hfits with
      | blank hblank =>
        rw [Span.eq_of_cut hcut hstop hi hcovers]
        exact .inl hblank

/-- **A scan loses nothing**: the tokens of a source but for the end token, which comes last, take stretches of its text
that follow each other; what lies between them is white space and comments.  The characters of a token are its literal
or, of a string, what its literal is written as between quotes. -/
theorem tokenize_lossless (source : String) : ∃ (tokens : List (Token × Span)) (comments : List Span),
    tokenize source = tokens.map Prod.fst ++ [.atEnd (TokenStream.ofSource source).endPos] ∧
      (∀ p ∈ tokens, p.1.kind ≠ .eof) ∧ Lossless (Text.Tab.expand source.toList) tokens comments := by
  have hplaced := tokenize_placed source
  refine ⟨placed _, comments _, ?_, fun p hp => ?_, lossless_placed _⟩
  · rw [← hplaced]
    rfl
  · have hmem : p.1 ∈ (TokenStream.ofSource source).ahead := hplaced ▸ List.mem_map_of_mem hp
    exact TokenStream.kind_ofSource_ne_eof p.1 hmem

end Monkey
