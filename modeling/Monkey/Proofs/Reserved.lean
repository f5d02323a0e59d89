import Monkey.Proofs.Literals
import Monkey.Proofs.Places
import Monkey.Proofs.Spacing
import Monkey.Proofs.Walks
/-!
# Reserved words

Whether a word is reserved is read off the word, but for one exception: directly behind a number it is a name, whatever
it is spelled like.  A piece of a text that ends in a character of a word goes on as long as the word does, unless it is
a number (`edge_first`), so no other neighbour makes a difference.  The names of a tree are tokens of its text, and what
is true of these is true of them (`kind_of_word`).
-/
namespace Monkey

open Piece (isWordStart isWordChar)

/-- The kinds of words: names and reserved words. -/
def Kind.words : List Kind := .ident :: keywords.map (·.2)

/-! ## What stands before a word -/

/-- Where a word begins behind a character of a word, this is a digit. -/
def Edge (before : Option Char) (text : List Char) : Prop :=
  ∀ c ∈ text.head?, isWordStart c = true → before.any isWordChar = before.any Text.isDigit

theorem edge_of_not_isWordChar {c : Char} (h : isWordChar c = false) (text : List Char) : Edge (some c) text := by
  intro _ _ _
  show isWordChar c = Text.isDigit c
  cases hdigit : Text.isDigit c with
  | false => exact h
  | true => rw [isWordChar_of_isDigit hdigit] at h; cases h

theorem not_isWordChar {c : Char} (hword : ¬isWordStart c = true) (hdigit : ¬Text.isDigit c = true) :
    isWordChar c = false := by
  have hchar : c.isDigit = false := by
    simp only [Text.isDigit, Bool.and_eq_true, decide_eq_true_eq, Char.le_def] at hdigit
    simpa [Char.isDigit] using hdigit
  simp only [isWordStart, Bool.or_eq_true, not_or, Bool.not_eq_true] at hword
  simp only [isWordChar, Char.isAlphanum, hword, hchar, Bool.or_self]

/-- A word goes on as far as there are characters of words. -/
theorem clear_of_takeWhile {rest behind : List Char} (h : rest.takeWhile isWordChar ++ behind = rest) :
    Clear behind := by
  obtain rfl := List.append_cancel_left (h.trans List.takeWhile_append_dropWhile.symm)
  intro d hd
  have hstop := List.head?_dropWhile_not isWordChar rest
  rw [hd] at hstop
  simpa using hstop

/-- Whatever piece is cut, a word behind it begins behind a character of a word only if that is a digit. -/
theorem edge_first {before : Option Char} {c : Char} {rest behind : List Char}
    (h : (Piece.first before c rest).text ++ behind = c :: rest) :
    Edge (Piece.first before c rest).text.getLast? behind := by
  have hfits := fits_first h
  unfold Piece.first at h hfits ⊢
  by_cases hblank : Text.isBlank c = true
  · rw [if_pos hblank]
    exact edge_of_not_isWordChar (not_isWordChar_of_isBlank hblank) behind
  rw [if_neg hblank] at h hfits ⊢
  by_cases hslash : c = '/' ∧ rest.head? = some '/'
  · -- a comment ends at a line feed, or nothing is behind it
    rw [if_pos hslash] at hfits ⊢
    cases hfits with
    | comment hcomment =>
      obtain ⟨_, -, -, rfl | ⟨hfeed, -⟩⟩ := hcomment
      · exact nofun
      · intro d hd hstart
        rw [hfeed] at hd
        cases hd
        cases hstart
  rw [if_neg hslash] at h hfits ⊢
  by_cases hword : isWordStart c = true
  · rw [if_pos hword] at h
    have hclear : Clear behind := clear_of_takeWhile (List.cons.inj h).2
    intro d hd hstart
    have hstop := hclear d hd
    rw [isWordChar_of_isWordStart hstart] at hstop
    cases hstop
  rw [if_neg hword] at h hfits ⊢
  by_cases hdigit : Text.isDigit c = true
  · rw [if_pos hdigit]
    intro _ _ _
    have hdigits : ∀ d ∈ c :: rest.takeWhile Text.isDigit, Text.isDigit d = true :=
      List.forall_mem_cons.2 ⟨hdigit, fun d hd => List.all_eq_true.1 List.all_takeWhile d hd⟩
    obtain ⟨d, hd⟩ := Option.isSome_iff_exists.1
      (List.getLast?_isSome.2 (List.cons_ne_nil c (rest.takeWhile Text.isDigit)))
    have hlast := hdigits d (List.mem_of_getLast? hd)
    show (c :: rest.takeWhile Text.isDigit).getLast?.any isWordChar = (c :: rest.takeWhile Text.isDigit).getLast?.any _
    rw [hd]
    exact (isWordChar_of_isDigit hlast).trans hlast.symm
  rw [if_neg hdigit] at h hfits ⊢
  by_cases hquote : c = '"'
  · rw [if_pos hquote]
    split
    · rename_i written hwritten
      have hlast : ('"' :: written ++ ['"']).getLast? = some '"' := List.getLast?_concat
      show Edge ('"' :: written ++ ['"']).getLast? behind
      rw [hlast]
      exact edge_of_not_isWordChar (by decide) behind
    · exact edge_of_not_isWordChar (not_isWordChar hword hdigit) behind
  · rw [if_neg hquote]
    unfold Piece.ofSymbol
    split
    · exact edge_of_not_isWordChar (by decide) behind
    · exact edge_of_not_isWordChar (by decide) behind
    · exact edge_of_not_isWordChar (not_isWordChar hword hdigit) behind

/-- A piece of a text is cut behind the last character of the pieces before it. -/
theorem piece_behind (pre : List Piece) :
    ∀ {before : Option Char} {text : List Char} {piece : Piece} {post : List Piece},
    Edge before text → piecesFrom before 0 text = pre ++ piece :: post →
    ∃ c rest, piece = Piece.first ((pre.flatMap Piece.text).getLast?.or before) c rest ∧
      Edge ((pre.flatMap Piece.text).getLast?.or before) (c :: rest) := by
  induction pre with
  | nil =>
    intro before text piece post hedge h
    cases text with
    | nil => cases h
    | cons c rest =>
      obtain ⟨rfl, -⟩ := List.cons.inj h
      exact ⟨c, rest, rfl, hedge⟩
  | cons p pre ih =>
    intro before text piece post hedge h
    cases text with
    | nil => cases h
    | cons c rest =>
      obtain ⟨hp, hrest⟩ := List.cons.inj h
      obtain ⟨w, hw, behind, rfl⟩ := text_first before c rest
      have hlast : w.getLast?.or (some c) = (c :: w).getLast? := by
        cases w with
        | nil => rfl
        | cons d w => simp [List.getLast?_cons]
      rw [hw, List.length_cons, Nat.add_sub_cancel, piecesFrom_skip, hlast] at hrest
      have hedge' : Edge (c :: w).getLast? behind := hw ▸ edge_first (by rw [hw]; rfl)
      obtain ⟨d, rest', hpiece, hd⟩ := ih hedge' hrest
      have hjoin : ((p :: pre).flatMap Piece.text).getLast?.or before =
          (pre.flatMap Piece.text).getLast?.or (c :: w).getLast? := by
        rw [List.flatMap_cons, ← hp, hw, List.getLast?_append, Option.or_assoc, List.getLast?_cons]
        rfl
      rw [hjoin]
      exact ⟨d, rest', hpiece, hd⟩

/-! ## The kind of a word -/

theorem ofChar_not_mem_words (c : Char) : (Kind.ofChar? c).getD .illegal ∉ Kind.words := by
  unfold Kind.ofChar?
  split <;> decide

/-- A piece whose kind is that of a word is a word. -/
theorem word_of_first {before : Option Char} {c : Char} {rest span : List Char} {kind : Kind} {literal : String}
    (h : Piece.first before c rest = .lexeme kind span literal) (hkind : kind ∈ Kind.words) :
    isWordStart c = true ∧ Piece.ofWord before (c :: rest.takeWhile isWordChar) = .lexeme kind span literal := by
  unfold Piece.first at h
  split at h
  · cases h
  split at h
  · cases h
  split at h
  · exact ⟨by assumption, h⟩
  split at h
  · cases h
    exact absurd hkind (by decide)
  split at h
  · split at h <;> cases h <;> exact absurd hkind (by decide)
  · unfold Piece.ofSymbol at h
    split at h
    · cases h
      exact absurd hkind (by decide)
    · cases h
      exact absurd hkind (by decide)
    · cases h
      exact absurd hkind (ofChar_not_mem_words c)

/-- The word of a token in a text whose tabs are expanded. -/
theorem word_of_placed {text : List Char} {p : Token × Span} (h : p ∈ placed text) (hkind : p.1.kind ∈ Kind.words) :
    ∃ front behind, text = front ++ (p.1.literal.toList ++ behind) ∧ p.1.pos = .behind front ∧
      (∃ c w, p.1.literal.toList = c :: w ∧ (c :: w).all isWordChar = true) ∧
      p.1.kind = if front.getLast?.any Text.isDigit then .ident else .ofWord p.1.literal := by
  obtain ⟨kind, span, literal, hq, ht⟩ := mem_placed h
  obtain ⟨pre, post, hps, hspan⟩ := split_of_mem_layout hq
  rw [ht] at hkind ⊢
  obtain ⟨c, rest, hfirst, hedge⟩ := piece_behind pre (fun _ _ _ => rfl) hps
  rw [Option.or_none] at hfirst hedge
  obtain ⟨hstart, hword⟩ := word_of_first hfirst.symm hkind
  rw [Piece.ofWord] at hword
  injection hword with hk hs hl
  subst hs hl
  have htext : text = pre.flatMap Piece.text ++ (c :: rest.takeWhile isWordChar ++ post.flatMap Piece.text) := by
    rw [← text_pieces text, hps, List.flatMap_append, List.flatMap_cons]
    rfl
  refine ⟨pre.flatMap Piece.text, post.flatMap Piece.text, ?_, ?_, ⟨c, _, String.toList_ofList, ?_⟩, ?_⟩
  · rw [String.toList_ofList]
    exact htext
  · rw [hspan, Nat.zero_add]
    show Pos.behind (text.take (pre.flatMap Piece.text).length) = _
    rw [htext, List.take_left]
  · rw [List.all_cons, isWordChar_of_isWordStart hstart, List.all_takeWhile]
    rfl
  · rw [← hk, hedge c rfl hstart]

/-- The word of a token in a source as it stands. -/
theorem word_of_mem_ahead {source : String} {t : Token} (ht : t ∈ (TokenStream.ofSource source).ahead)
    (hkind : t.kind ∈ Kind.words) :
    ∃ front rest, source.toList = front ++ (t.literal.toList ++ rest) ∧ t.pos = .behind (Text.Tab.expand front) ∧
      t.kind = if front.getLast?.any Text.isDigit then .ident else .ofWord t.literal := by
  rw [tokenize_placed] at ht
  obtain ⟨p, hp, rfl⟩ := List.mem_map.1 ht
  obtain ⟨front, behind, htext, hpos, ⟨c, w, hcw, hchars⟩, hword⟩ := word_of_placed hp hkind
  have hspace : ' ' ∉ c :: w := fun hmem => absurd (List.all_eq_true.1 hchars _ hmem) (by decide)
  rw [hcw] at htext ⊢
  obtain ⟨pre, e, post, hsource, rfl⟩ := Text.Tab.eq_append_of_expandFrom
    (fun hc => hspace (hc ▸ List.mem_cons_self)) _ htext
  rw [hsource, Text.Tab.expand, Text.Tab.expandFrom_append] at htext
  obtain ⟨rest, hrest⟩ := Text.Tab.eq_append_of_expandFrom_append hspace (List.append_cancel_left htext)
  rw [Text.Tab.any_getLast?_expandFrom (by decide) (by decide)] at hword
  exact ⟨pre, rest, by rw [hsource, hrest], hpos, hword⟩

/-- **A word is classified by its spelling**, unless the number before it is not set apart.  A name or a reserved word
among the tokens of a source stands in it as it is spelled, and its kind is that of its spelling if the character right
before it is no digit; behind a digit it is a name.  So a name in the tree of a source, that of a parameter or of a
binding included, is spelled like a reserved word only behind a digit. -/
theorem kind_of_word (source : String) :
    (∀ t ∈ tokenize source, t.kind ∈ Kind.words →
      ∃ front rest, source.toList = front ++ (t.literal.toList ++ rest) ∧ t.pos = .behind (Text.Tab.expand front) ∧
        t.kind = if front.getLast?.any Text.isDigit then .ident else .ofWord t.literal) ∧
    ∀ q ∈ (Node.program (parse source).program).walk 0, ∀ id, q.2 = .ident id →
      ∃ front rest, source.toList = front ++ (id.name.toList ++ rest) ∧ id.pos = .behind (Text.Tab.expand front) ∧
        (Kind.ofWord id.name = .ident ∨ front.getLast?.any Text.isDigit = true) := by
  refine ⟨fun t ht hkind => ?_, fun q hq id hid => ?_⟩
  · rcases List.mem_append.1 ht with ht | ht
    · exact word_of_mem_ahead ht hkind
    · rw [List.mem_singleton.1 ht] at hkind
      exact absurd hkind (by decide : Kind.eof ∉ Kind.words)
  · have hdrawn := Node.forall_mem_walk (fun _ h _ hc => h.child hc) (Parsed.drawn (.ofSource source)) q hq
    rw [hid] at hdrawn
    have hmem : id.token ∈ (TokenStream.ofSource source).ahead := hdrawn.taken
    obtain ⟨front, rest, hsource, hpos, hkind⟩ := word_of_mem_ahead hmem List.mem_cons_self
    refine ⟨front, rest, hsource, hpos, ?_⟩
    by_cases hdigit : front.getLast?.any Text.isDigit = true
    · exact .inr hdigit
    · rw [if_neg hdigit] at hkind
      exact .inl hkind.symm

/-- A reserved word between a tab and a symbol. -/
theorem kind_of_word_tab : ∃ front rest, "x1\tlet$".toList = front ++ ("let".toList ++ rest) ∧
    ⟨1, 9⟩ = Pos.behind (Text.Tab.expand front) ∧
      Kind.letWord = if front.getLast?.any Text.isDigit then .ident else .ofWord "let" :=
  (kind_of_word "x1\tlet$").1 ⟨.letWord, "let", ⟨1, 9⟩⟩ (by decide +kernel) (by decide)

/-- Right behind a number a reserved word is a name; what is rendered with such a name cannot be parsed. -/
theorem not_kind_of_word_let :
    tokenize "1let" = [⟨.int, "1", ⟨1, 1⟩⟩, ⟨.ident, "let", ⟨1, 2⟩⟩, .atEnd ⟨1, 5⟩] ∧
      ¬(∀ t ∈ tokenize "1let", t.kind ∈ Kind.words → t.kind = .ofWord t.literal) ∧
      (parse "1let").errors = [] ∧ (parse (parse "1let").program.render).errors ≠ [] := by
  decide +kernel

end Monkey
