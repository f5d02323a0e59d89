import Monkey.Proofs.Spelling
import Monkey.Proofs.Tabs
/-!
# Layout does not matter

Lexemes that are written one behind the other, with any white space and any comments between them, are scanned as they
are (`tokenize_spaced`).  A separator has to begin with white space, because two slashes behind a slash would begin the
comment one character earlier.  Expanding the tabs makes another layout of the same lexemes; so the scanner need only be
followed through layouts as they stand.
-/
namespace Monkey

open Piece (isWordStart isWordChar)

/-- The kinds of operators and delimiters: those that are not spelled with letters. -/
def Kind.symbols : List Kind := Kind.all.filter fun kind => !kind.spelling.toList.all Char.isAlpha

/-- How a lexeme is written: a name, a number and a symbol as they are, a string between quotes. -/
inductive Lexeme.SpelledAs : Lexeme → String → Prop
  | name {text : String} (hword : isWord text = true) (hplain : Kind.ofWord text = .ident) :
      SpelledAs ⟨.ident, text⟩ text
  | keyword {word : String} {kind : Kind} (h : (word, kind) ∈ keywords) : SpelledAs ⟨kind, word⟩ word
  | number {digits : String} (h : isNumber digits = true) : SpelledAs ⟨.int, digits⟩ digits
  | symbol {kind : Kind} (h : kind ∈ Kind.symbols) : SpelledAs ⟨kind, kind.spelling⟩ kind.spelling
  | string (text : String) : SpelledAs ⟨.string, text⟩ (quoteString text)

/-- Any mix of white space and of comments, each with the line feed that ends it.  A backslash right before that line
feed would carry the comment over it. -/
inductive Filler : List Char → Prop
  | nil : Filler []
  | blank {c : Char} {rest : List Char} (hc : Text.isBlank c = true) (hrest : Filler rest) : Filler (c :: rest)
  | comment {body rest : List Char} (hline : '\n' ∉ body) (hclosed : Closed body) (hrest : Filler rest) :
      Filler ('/' :: '/' :: (body ++ '\n' :: rest))

/-- White space, and then any mix of white space and comments. -/
inductive Separator : List Char → Prop
  | mk {c : Char} {rest : List Char} (hc : Text.isBlank c = true) (hrest : Filler rest) : Separator (c :: rest)

/-- Lexemes one behind the other, with a separator between each and the next; behind the last there may be one. -/
inductive Spaced : List Lexeme → List Char → Prop
  | nil : Spaced [] []
  | last {l : Lexeme} {text : String} (h : l.SpelledAs text) : Spaced [l] text.toList
  | cons {l : Lexeme} {ls : List Lexeme} {text : String} {sep rest : List Char} (h : l.SpelledAs text)
      (hsep : Separator sep) (hrest : Spaced ls rest) : Spaced (l :: ls) (text.toList ++ (sep ++ rest))

/-! ## Lexemes in front of white space -/

/-- Nothing stands here, or white space. -/
def Parted (text : List Char) : Prop := ∀ c ∈ text.head?, Text.isBlank c = true

theorem code_of_isWordChar {c : Char} (h : isWordChar c = true) : 48 ≤ c.toNat ∧ c.toNat ≤ 122 := by
  have hcases : isWordStart c = true ∨ Text.isDigit c = true := by
    simp only [isWordChar, isWordStart, Char.isAlphanum, Bool.or_eq_true] at h ⊢
    rcases h with (h | h) | h
    · exact .inl (.inl h)
    · exact .inr (by simpa [Text.isDigit, Char.isDigit, Char.le_def] using h)
    · exact .inl (.inr h)
  rcases hcases with h | h
  · have hcode := code_of_isWordStart h
    omega
  · have hcode := code_of_isDigit h
    omega

theorem not_isWordChar_of_isBlank {c : Char} (h : Text.isBlank c = true) : isWordChar c = false := by
  cases hchar : isWordChar c with
  | false => rfl
  | true =>
    rw [isBlank_of_code (code_of_isWordChar hchar)] at h
    cases h

theorem Separator.filler {sep : List Char} (h : Separator sep) : Filler sep := by
  cases h with
  | mk hc hrest => exact .blank hc hrest

theorem Separator.parted {sep : List Char} (h : Separator sep) (rest : List Char) : Parted (sep ++ rest) := by
  cases h with
  | mk hc _ => exact fun d hd => by cases hd; exact hc

theorem Parted.clear {text : List Char} (h : Parted text) : Clear text := fun c hc => not_isWordChar_of_isBlank (h c hc)

theorem Parted.head_ne {text : List Char} (h : Parted text) {c : Char} (hc : Text.isBlank c = false) :
    text.head? ≠ some c := fun hhead => by
  rw [h c hhead] at hc
  cases hc

/-- Two of the symbols have two characters; of the others, a character has the kind that it spells. -/
theorem Kind.symbols_cases : ∀ kind ∈ symbols, kind = .eq ∨ kind = .notEq ∨
    kind.spelling.toList = [kind.spelling.toList.headD ' '] ∧ ofChar? (kind.spelling.toList.headD ' ') = some kind := by
  decide

theorem Kind.fixed_of_symbols : ∀ kind ∈ symbols, Lexeme.fixed kind = ⟨kind, kind.spelling⟩ := by decide

theorem Kind.scan_symbols {kind : Kind} (h : kind ∈ symbols) {rest : List Char} (hrest : Parted rest) :
    scan (kind.spelling.toList ++ rest) = ⟨kind, kind.spelling⟩ :: scan rest := by
  rw [← fixed_of_symbols kind h]
  rcases symbols_cases kind h with rfl | rfl | ⟨hspelling, hkind⟩
  · exact scan_equal rest
  · exact scan_notEqual rest
  · rw [hspelling]
    exact scan_symbol hkind (fun _ => hrest.head_ne (by decide)) fun _ => hrest.head_ne (by decide)

theorem isWord_of_keywords : ∀ entry ∈ keywords, isWord entry.1 = true ∧ Kind.ofWord entry.1 = entry.2 := by decide

namespace Lexeme.SpelledAs

variable {l : Lexeme} {text : String}

theorem noTab (h : l.SpelledAs text) : '\t' ∉ text.toList := by
  cases h with
  | name hword => exact (scans_word hword).noTab
  | keyword hmem => exact (scans_word (isWord_of_keywords _ hmem).1).noTab
  | number hnumber => exact (scans_number hnumber).noTab
  | symbol hkind =>
    revert hkind
    exact (by decide : ∀ kind ∈ Kind.symbols, '\t' ∉ kind.spelling.toList) _
  | string text => exact (scans_quoteString text).noTab

/-- A lexeme ends in front of white space. -/
theorem scan (h : l.SpelledAs text) {rest : List Char} (hrest : Parted rest) :
    Monkey.scan (text.toList ++ rest) = l :: Monkey.scan rest := by
  cases h with
  | name hword hplain =>
    have hscan := (scans_word hword).scan rest hrest.clear
    rwa [hplain] at hscan
  | keyword hmem =>
    obtain ⟨hword, hkind⟩ := isWord_of_keywords _ hmem
    have hscan := (scans_word hword).scan rest hrest.clear
    rwa [hkind] at hscan
  | number hnumber => exact (scans_number hnumber).scan rest hrest.clear
  | symbol hkind => exact Kind.scan_symbols hkind hrest
  | string text => exact (scans_quoteString text).scan rest hrest.clear

end Lexeme.SpelledAs

/-! ## White space and comments -/

theorem scan_blank {c : Char} (hc : Text.isBlank c = true) (rest : List Char) : scan (c :: rest) = scan rest := by
  have hfirst : Piece.first none c rest = .blank c := by
    unfold Piece.first
    rw [if_pos hc]
  have hpiece := scan_piece (c := c) (w := []) rest (by rw [List.nil_append, hfirst]; rfl)
    (.inl (not_isWordChar_of_isBlank hc))
  rw [List.nil_append, hfirst] at hpiece
  exact hpiece

/-- In a single line, nothing ends a comment. -/
theorem commentText_of_line : ∀ {text : List Char}, '\n' ∉ text → Piece.commentText text = text
  | [], _ => rfl
  | c :: text, h => by
    have hc : c ≠ '\n' := fun hc => h (hc ▸ List.mem_cons_self)
    have htext : '\n' ∉ text := fun hmem => h (List.mem_cons_of_mem _ hmem)
    rw [commentText_cons (fun _ hhead => htext (List.mem_of_mem_head? hhead)) hc, commentText_of_line htext]

theorem scan_comment {body : List Char} (hline : '\n' ∉ body) (hclosed : Closed body) (rest : List Char) :
    scan ('/' :: '/' :: (body ++ '\n' :: rest)) = scan rest := by
  have htext : Piece.commentText ('/' :: (body ++ '\n' :: rest)) = '/' :: body := by
    rw [commentText_cons (fun h => absurd h (by decide)) (by decide), commentText_line rest hclosed,
      commentText_of_line hline]
  have hfirst : Piece.first none '/' ('/' :: body ++ '\n' :: rest) = .comment ('/' :: '/' :: body) := by
    unfold Piece.first
    rw [if_neg (by decide), if_pos ⟨rfl, rfl⟩, List.cons_append, htext]
  have hpiece := scan_piece (c := '/') (w := '/' :: body) ('\n' :: rest) (by rw [hfirst]; rfl)
    (.inr fun c hc => by cases hc; decide)
  rw [hfirst] at hpiece
  exact hpiece.trans (scan_blank (c := '\n') (by decide) rest)

theorem Filler.scan {text : List Char} (h : Filler text) (rest : List Char) : scan (text ++ rest) = scan rest := by
  induction h with
  | nil => rfl
  | blank hc _ ih => exact (scan_blank hc _).trans ih
  | comment hline hclosed _ ih =>
    simp only [List.cons_append, List.append_assoc]
    exact (scan_comment hline hclosed _).trans ih

/-! ## Tabs make another layout -/

open Text.Tab (expandFrom expandFrom_append expandFrom_cons expandFrom_cons_of_ne expandFrom_tab mem_expandFrom)

theorem Filler.spaces {rest : List Char} (h : Filler rest) (k : Nat) : Filler (List.replicate k ' ' ++ rest) := by
  induction k with
  | zero => exact h
  | succ k ih => exact .blank (by decide) ih

theorem Filler.expand {text : List Char} (h : Filler text) : ∀ n : Nat, Filler (expandFrom n text) := by
  induction h with
  | nil => exact fun _ => .nil
  | @blank c rest hc _ ih =>
    intro n
    by_cases htab : c = '\t'
    · obtain ⟨k, hk⟩ := expandFrom_tab n
      rw [htab, hk]
      exact (ih _).spaces _
    · obtain ⟨m, hm⟩ := expandFrom_cons_of_ne htab n
      rw [hm]
      exact .blank hc (ih m)
  | @comment body rest hline hclosed _ ih =>
    intro n
    rw [expandFrom_cons (by decide), expandFrom_cons (by decide), expandFrom_line]
    refine .comment (fun hmem => ?_) (closed_expandFrom _ _ hclosed) (ih 0)
    rcases (mem_expandFrom body hmem).2 with hmem | ⟨heq, -⟩
    · exact hline hmem
    · cases heq

theorem Separator.expand {text : List Char} (h : Separator text) (n : Nat) : Separator (expandFrom n text) := by
  cases h with
  | @mk c rest hc hrest =>
    by_cases htab : c = '\t'
    · obtain ⟨k, hk⟩ := expandFrom_tab n
      rw [htab, hk]
      exact .mk (by decide) ((hrest.expand _).spaces k)
    · obtain ⟨m, hm⟩ := expandFrom_cons_of_ne htab n
      rw [hm]
      exact .mk hc (hrest.expand m)

theorem Spaced.expand {ls : List Lexeme} {text : List Char} (h : Spaced ls text) :
    ∀ n : Nat, Spaced ls (expandFrom n text) := by
  induction h with
  | nil => exact fun _ => .nil
  | last htext =>
    intro n
    rw [expandFrom_of_noTab n htext.noTab]
    exact .last htext
  | cons htext hsep _ ih =>
    intro n
    rw [expandFrom_append, expandFrom_append, expandFrom_of_noTab n htext.noTab]
    exact .cons htext (hsep.expand _) (ih _)

/-! ## The scan -/

theorem Spaced.scan {ls : List Lexeme} {text : List Char} (h : Spaced ls text) : scan text = ls := by
  induction h with
  | nil => rfl
  | last htext =>
    have hscan := htext.scan (show Parted [] from nofun)
    rwa [List.append_nil, scan_nil] at hscan
  | cons htext hsep _ ih => rw [htext.scan (hsep.parted _), hsep.filler.scan, ih]

/-- **Layout does not matter.**  Lexemes that are written one behind the other, with white space and comments before,
between and behind them, each separator beginning with white space, are the tokens of the source but for the end
token. -/
theorem tokenize_spaced {lead text : List Char} {ls : List Lexeme} (hlead : Filler lead) (h : Spaced ls text) :
    (tokenize (String.ofList (lead ++ text))).map Token.lexeme = ls ++ [⟨.eof, ""⟩] := by
  have hahead : (TokenStream.ofSource (String.ofList (lead ++ text))).ahead.map Token.lexeme = ls := by
    rw [lexeme_ofSource_expand, String.toList_ofList, Text.Tab.expand, expandFrom_append, (hlead.expand 0).scan,
      (h.expand _).scan]
  show (_ ++ [_]).map Token.lexeme = _
  rw [List.map_append, hahead]
  rfl

/-- A keyword, a slash in front of a comment, and a string of a tab and two slashes, behind a tab. -/
theorem tokenize_spaced_comment :
    Filler ['\t'] ∧ Spaced [.fixed .letWord, .fixed .slash, ⟨.string, "\t//"⟩] "let\t/ // \"\n\"\\t//\" ".toList ∧
      (tokenize (String.ofList (['\t'] ++ "let\t/ // \"\n\"\\t//\" ".toList))).map Token.lexeme =
        [.fixed .letWord, .fixed .slash, ⟨.string, "\t//"⟩] ++ [⟨.eof, ""⟩] := by
  have hlead : Filler ['\t'] := .blank (by decide) .nil
  have htab : Separator ['\t'] := .mk (by decide) .nil
  have hcomment : Separator " // \"\n".toList :=
    .mk (by decide) (.comment (show '\n' ∉ [' ', '"'] by decide) (by decide) .nil)
  have hspace : Separator [' '] := .mk (by decide) .nil
  have h : Spaced [.fixed .letWord, .fixed .slash, ⟨.string, "\t//"⟩] "let\t/ // \"\n\"\\t//\" ".toList :=
    .cons (.keyword (show ("let", Kind.letWord) ∈ keywords by decide)) htab
      (.cons (.symbol (show Kind.slash ∈ Kind.symbols by decide)) hcomment (.cons (.string "\t//") hspace .nil))
  exact ⟨hlead, h, tokenize_spaced hlead h⟩

end Monkey
