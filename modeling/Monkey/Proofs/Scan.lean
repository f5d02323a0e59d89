import Monkey.Ast.Basic
import Monkey.Token.Stream
/-!
# Scanning, one lexeme after the other

What the scanner makes of a text that begins with a known lexeme, whatever follows.  A lexeme ends where its text ends
if the text behind cannot continue it, and no reserved word becomes an identifier unless a word character stands right
before it.  `scan` forgets white space, comments and places.
-/
namespace Monkey

open Piece (isWordStart isWordChar)

/-- A token without its place. -/
structure Lexeme where
  kind : Kind
  literal : String
  deriving DecidableEq

/-- The lexeme of a kind that has only one literal. -/
def Lexeme.fixed (kind : Kind) : Lexeme := ⟨kind, (Token.fixed kind .start).literal⟩

def Token.lexeme (t : Token) : Lexeme := ⟨t.kind, t.literal⟩

def Piece.lexeme? : Piece → Option Lexeme
  | lexeme kind _ literal => some ⟨kind, literal⟩
  | _ => none

/-- The lexemes of a text. -/
def scan (text : List Char) : List Lexeme := (pieces text).filterMap Piece.lexeme?

theorem lexeme_tokensFrom : ∀ (pos : Pos) (ps : List Piece),
    (Piece.tokensFrom pos ps).map Token.lexeme = ps.filterMap Piece.lexeme?
  | _, [] => rfl
  | pos, .lexeme kind text literal :: ps => by
    rw [Piece.tokensFrom, List.map_cons, lexeme_tokensFrom]; rfl
  | pos, .blank c :: ps => by
    rw [Piece.tokensFrom, lexeme_tokensFrom]
    · rfl
    · simp
  | pos, .comment text :: ps => by
    rw [Piece.tokensFrom, lexeme_tokensFrom]
    · rfl
    · simp

/-- The tokens of a source text are the lexemes that are there when its tabs are expanded. -/
theorem lexeme_ofSource_expand (source : String) :
    (TokenStream.ofSource source).ahead.map Token.lexeme = scan (Text.Tab.expand source.toList) :=
  lexeme_tokensFrom .start _

theorem expandFrom_of_noTab : ∀ (n : Nat) {text : List Char}, '\t' ∉ text → Text.Tab.expandFrom n text = text
  | _, [], _ => rfl
  | n, c :: rest, h => by
    have hne : c ≠ '\t' := fun hc => h (hc ▸ List.mem_cons_self)
    have hrest : '\t' ∉ rest := fun hc => h (List.mem_cons_of_mem _ hc)
    rw [Text.Tab.expandFrom, if_neg hne]
    split <;> rw [expandFrom_of_noTab _ hrest]

/-- Tabs apart, the tokens of a source text are its lexemes. -/
theorem lexeme_ofSource {source : String} (h : '\t' ∉ source.toList) :
    (TokenStream.ofSource source).ahead.map Token.lexeme = scan source.toList := by
  rw [lexeme_ofSource_expand, Text.Tab.expand, expandFrom_of_noTab 0 h]

/-! ## The next piece -/

/-- No word goes on here. -/
def Clear (text : List Char) : Prop := ∀ c ∈ text.head?, isWordChar c = false

theorem clear_nil : Clear [] := by simp [Clear]

theorem isWordChar_of_isWordStart {c : Char} (h : isWordStart c = true) : isWordChar c = true := by
  simp only [isWordStart, isWordChar, Char.isAlphanum, Bool.or_eq_true] at h ⊢
  rcases h with h | h
  · exact .inl (.inl h)
  · exact .inr h

/-- The character before matters to a word only. -/
theorem first_before {before : Option Char} {c : Char} {rest : List Char}
    (h : before.any isWordChar = false ∨ isWordStart c = false) :
    Piece.first before c rest = Piece.first none c rest := by
  unfold Piece.first
  rcases h with h | h
  · simp only [Piece.ofWord, h, Option.any_none]
  · simp only [h, Bool.false_eq_true, if_false]

theorem piecesFrom_before {before : Option Char} {text : List Char}
    (h : before.any isWordChar = false ∨ Clear text) : piecesFrom before 0 text = pieces text := by
  cases text with
  | nil => rfl
  | cons c rest =>
    have hc : before.any isWordChar = false ∨ isWordStart c = false := h.imp id fun h => by
      have hchar := h c rfl
      cases hs : isWordStart c with
      | false => rfl
      | true => rw [isWordChar_of_isWordStart hs] at hchar; cases hchar
    show Piece.first before c rest :: _ = Piece.first none c rest :: _
    rw [first_before hc]

theorem piecesFrom_skip : ∀ (w : List Char) (before : Option Char) (rest : List Char),
    piecesFrom before w.length (w ++ rest) = piecesFrom (w.getLast?.or before) 0 rest
  | [], _, _ => rfl
  | c :: w, before, rest => by
    show piecesFrom (some c) w.length (w ++ rest) = _
    rw [piecesFrom_skip w (some c) rest]
    cases w with
    | nil => rfl
    | cons d w => rw [List.getLast?_cons_cons]; simp [List.getLast?_cons]

/-- One piece, and then the rest as if nothing stood before it. -/
theorem scan_piece {c : Char} {w : List Char} (rest : List Char)
    (htext : (Piece.first none c (w ++ rest)).text = c :: w) (hclear : isWordChar (w.getLastD c) = false ∨ Clear rest) :
    scan (c :: (w ++ rest)) = (Piece.first none c (w ++ rest)).lexeme?.toList ++ scan rest := by
  have hpieces : pieces (c :: (w ++ rest)) = Piece.first none c (w ++ rest) :: pieces rest := by
    show Piece.first none c (w ++ rest) :: piecesFrom (some c) _ _ = _
    rw [htext, List.length_cons, Nat.add_sub_cancel, piecesFrom_skip, piecesFrom_before]
    refine hclear.imp (fun h => ?_) id
    rw [List.getLastD_eq_getLast?] at h
    cases hw : w.getLast? with
    | none => rw [hw] at h; exact h
    | some d => rw [hw] at h; exact h
  rw [scan, hpieces, List.filterMap_cons]
  cases (Piece.first none c (w ++ rest)).lexeme? <;> rfl

theorem scan_nil : scan [] = [] := rfl

/-! ## Symbols -/

/-- The character of a symbol begins nothing else. -/
theorem plain_of_ofChar {c : Char} {kind : Kind} (h : Kind.ofChar? c = some kind) :
    Text.isBlank c = false ∧ isWordStart c = false ∧ Text.isDigit c = false ∧ c ≠ '"' ∧ isWordChar c = false ∧
      (Lexeme.fixed kind).literal = String.singleton c := by
  unfold Kind.ofChar? at h
  split at h <;> cases h <;> decide

/-- A symbol of one character, unless it begins one of two or a comment. -/
theorem scan_symbol {c : Char} {kind : Kind} {rest : List Char} (hc : Kind.ofChar? c = some kind)
    (hslash : c = '/' → rest.head? ≠ some '/') (heq : c = '=' ∨ c = '!' → rest.head? ≠ some '=') :
    scan (c :: rest) = .fixed kind :: scan rest := by
  obtain ⟨hblank, hword, hdigit, hquote, hchar, hliteral⟩ := plain_of_ofChar hc
  have hsymbol : Piece.ofSymbol c rest = .lexeme kind [c] (Lexeme.fixed kind).literal := by
    unfold Piece.ofSymbol
    split
    · exact absurd rfl (heq (.inl rfl))
    · exact absurd rfl (heq (.inr rfl))
    · rw [hc, hliteral]; rfl
  have hfirst : Piece.first none c rest = .lexeme kind [c] (Lexeme.fixed kind).literal := by
    unfold Piece.first
    rw [if_neg (by simp [hblank]), if_neg (fun h => hslash h.1 h.2), if_neg (by simp [hword]),
      if_neg (by simp [hdigit]), if_neg hquote, hsymbol]
  have hpiece := scan_piece (c := c) (w := []) rest (by rw [List.nil_append, hfirst]; rfl) (.inl hchar)
  rw [List.nil_append, hfirst] at hpiece
  exact hpiece

theorem scan_equal (rest : List Char) : scan ('=' :: '=' :: rest) = .fixed .eq :: scan rest :=
  scan_piece (w := ['=']) rest rfl (.inl (by decide))

theorem scan_notEqual (rest : List Char) : scan ('!' :: '=' :: rest) = .fixed .notEq :: scan rest :=
  scan_piece (w := ['=']) rest rfl (.inl (by decide))

/-! ## Words and numbers -/

theorem code_of_isWordStart {c : Char} (h : isWordStart c = true) : 65 ≤ c.toNat ∧ c.toNat ≤ 122 := by
  delta isWordStart Char.isAlpha Char.isUpper Char.isLower at h
  simp only [Bool.or_eq_true, Bool.and_eq_true, decide_eq_true_eq, beq_iff_eq, ge_iff_le, UInt32.le_iff_toNat_le] at h
  rcases h with (⟨h₁, h₂⟩ | ⟨h₁, h₂⟩) | rfl
  · exact ⟨h₁, Nat.le_trans h₂ (by decide)⟩
  · exact ⟨Nat.le_trans (by decide) h₁, h₂⟩
  · decide

theorem code_of_isDigit {c : Char} (h : Text.isDigit c = true) : 48 ≤ c.toNat ∧ c.toNat ≤ 57 := by
  simp only [Text.isDigit, Bool.and_eq_true, decide_eq_true_eq, Char.le_def, UInt32.le_iff_toNat_le] at h
  exact h

theorem isBlank_of_code {c : Char} (h : 48 ≤ c.toNat ∧ c.toNat ≤ 122) : Text.isBlank c = false := by
  simp only [Text.isBlank, Bool.or_eq_false_iff, Bool.and_eq_false_iff, decide_eq_false_iff_not, beq_eq_false_iff_ne]
  omega

theorem isWordChar_of_isDigit {c : Char} (h : Text.isDigit c = true) : isWordChar c = true := by
  have hdigit : c.isDigit = true := by
    simp only [Text.isDigit, Bool.and_eq_true, decide_eq_true_eq, Char.le_def] at h
    simpa [Char.isDigit] using h
  simp [isWordChar, Char.isAlphanum, hdigit]

theorem takeWhile_exact {p : Char → Bool} {w rest : List Char} (hw : ∀ d ∈ w, p d = true)
    (hrest : ∀ d ∈ rest.head?, p d = false) : (w ++ rest).takeWhile p = w := by
  rw [List.takeWhile_append_of_pos hw]
  cases rest with
  | nil => simp
  | cons d rest => simp [hrest d rfl]

theorem scan_word {c : Char} {w rest : List Char} (hc : isWordStart c = true) (hw : w.all isWordChar = true)
    (hrest : Clear rest) :
    scan (c :: (w ++ rest)) = ⟨.ofWord (String.ofList (c :: w)), String.ofList (c :: w)⟩ :: scan rest := by
  have hcode := code_of_isWordStart hc
  have hslash : c ≠ '/' := fun h => by rw [h] at hcode; exact absurd hcode (by decide)
  have hfirst : Piece.first none c (w ++ rest) = Piece.ofWord none (c :: w) := by
    unfold Piece.first
    rw [if_neg (by simp [isBlank_of_code ⟨by omega, hcode.2⟩]), if_neg (fun h => hslash h.1), if_pos hc,
      takeWhile_exact (List.all_eq_true.1 hw) hrest]
  have hpiece := scan_piece (c := c) (w := w) rest (by rw [hfirst]; rfl) (.inr hrest)
  rw [hfirst] at hpiece
  exact hpiece

theorem scan_number {c : Char} {w rest : List Char} (hc : Text.isDigit c = true) (hw : w.all Text.isDigit = true)
    (hrest : Clear rest) : scan (c :: (w ++ rest)) = ⟨.int, String.ofList (c :: w)⟩ :: scan rest := by
  have hcode := code_of_isDigit hc
  have hslash : c ≠ '/' := fun h => by rw [h] at hcode; exact absurd hcode (by decide)
  have hword : ¬ isWordStart c = true := fun h => by have := code_of_isWordStart h; omega
  have hdigits : ∀ d ∈ rest.head?, Text.isDigit d = false := fun d hd => by
    have hclear := hrest d hd
    cases hdigit : Text.isDigit d with
    | false => rfl
    | true => rw [isWordChar_of_isDigit hdigit] at hclear; cases hclear
  have hfirst : Piece.first none c (w ++ rest) = .lexeme .int (c :: w) (String.ofList (c :: w)) := by
    unfold Piece.first
    rw [if_neg (by simp [isBlank_of_code ⟨hcode.1, by omega⟩]), if_neg (fun h => hslash h.1), if_neg hword, if_pos hc,
      takeWhile_exact (List.all_eq_true.1 hw) hdigits]
  have hpiece := scan_piece (c := c) (w := w) rest (by rw [hfirst]; rfl) (.inr hrest)
  rw [hfirst] at hpiece
  exact hpiece

/-! ## String literals -/

/-- Every character is either written as it is or behind a backslash. -/
theorem encodeChar_cases (c : Char) :
    (Text.Escape.encodeChar c = [c] ∧ c ≠ '\\' ∧ c ≠ '"' ∧ c ≠ '\n' ∧ c ≠ '\r' ∧ c ≠ '\t') ∨
      ∃ d, Text.Escape.encodeChar c = ['\\', d] ∧ d ≠ '\n' ∧ d ≠ '\t' ∧
        ∀ rest, Text.Escape.decode ('\\' :: d :: rest) = c :: Text.Escape.decode rest := by
  unfold Text.Escape.encodeChar
  split
  · exact .inr ⟨'\\', rfl, by decide, by decide, fun rest => by subst_vars; simp [Text.Escape.decode]⟩
  split
  · exact .inr ⟨'"', rfl, by decide, by decide, fun rest => by subst_vars; simp [Text.Escape.decode]⟩
  split
  · exact .inr ⟨'n', rfl, by decide, by decide, fun rest => by subst_vars; simp [Text.Escape.decode]⟩
  split
  · exact .inr ⟨'r', rfl, by decide, by decide, fun rest => by subst_vars; simp [Text.Escape.decode]⟩
  split
  · exact .inr ⟨'f', rfl, by decide, by decide, fun rest => by subst_vars; simp [Text.Escape.decode]⟩
  split
  · exact .inr ⟨'t', rfl, by decide, by decide, fun rest => by subst_vars; simp [Text.Escape.decode]⟩
  · exact .inl ⟨rfl, by assumption, by assumption, by assumption, by assumption, by assumption⟩

/-- **Reading the escapes that were written gives the text back.** -/
theorem decode_encode : ∀ text : List Char, Text.Escape.decode (Text.Escape.encode text) = text
  | [] => rfl
  | c :: text => by
    have ih := decode_encode text
    unfold Text.Escape.encode at ih ⊢
    rw [List.flatMap_cons]
    rcases encodeChar_cases c with ⟨hc, hne, -⟩ | ⟨d, hc, -, -, hdecode⟩
    · rw [hc, List.singleton_append, Text.Escape.decode, ih] <;> simp [hne]
    · rw [hc]
      show Text.Escape.decode ('\\' :: d :: List.flatMap _ _) = _
      rw [hdecode, ih]

/-- No quote that was written closes the literal. -/
theorem stringText_encode (rest : List Char) : ∀ text : List Char,
    Piece.stringText? (Text.Escape.encode text ++ '"' :: rest) = some (Text.Escape.encode text)
  | [] => rfl
  | c :: text => by
    have ih := stringText_encode rest text
    unfold Text.Escape.encode at ih ⊢
    rw [List.flatMap_cons]
    rcases encodeChar_cases c with ⟨hc, hback, hquote, hfeed, hreturn, -⟩ | ⟨d, hc, hfeed, -, -⟩
    · rw [hc, List.singleton_append, List.cons_append, Piece.stringText?, ih] <;> simp [hback, hquote, hfeed, hreturn]
    · rw [hc]
      show Piece.stringText? ('\\' :: d :: (List.flatMap _ _ ++ _)) = some ('\\' :: d :: List.flatMap _ _)
      rw [Piece.stringText?, if_neg hfeed, ih]
      rfl

theorem scan_string (text rest : List Char) :
    scan ('"' :: (Text.Escape.encode text ++ '"' :: rest)) = ⟨.string, String.ofList text⟩ :: scan rest := by
  have hfirst : Piece.first none '"' (Text.Escape.encode text ++ '"' :: rest) =
      .lexeme .string ('"' :: (Text.Escape.encode text ++ ['"'])) (String.ofList text) := by
    unfold Piece.first
    rw [if_neg (by decide), if_neg (fun h => absurd h.1 (by decide)), if_neg (by decide), if_neg (by decide),
      if_pos rfl, stringText_encode]
    show Piece.lexeme _ _ _ = _
    rw [decode_encode]
    rfl
  have happend : Text.Escape.encode text ++ '"' :: rest = Text.Escape.encode text ++ ['"'] ++ rest := by simp
  rw [happend] at hfirst ⊢
  rw [scan_piece rest (by rw [hfirst]; rfl) (.inl ?_), hfirst]
  · rfl
  · rw [List.getLastD_concat]
    decide

theorem scan_space (rest : List Char) : scan (' ' :: rest) = scan rest :=
  scan_piece (w := []) rest rfl (.inl (by decide))

end Monkey
