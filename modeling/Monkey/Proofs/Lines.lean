import Monkey.Proofs.Relocation
import Monkey.Proofs.Scan
/-!
# Scanning line by line

No token goes on behind a line feed, and the columns of tabs start again there.  So the tokens of two texts with a line
feed between them are those of the first and those of the second, some lines further down
(`TokenStream.ofSource_append_line`).  A comment alone can be carried over a line feed, by a backslash right before it.
-/
namespace Monkey

/-! ## Nothing is lost -/

theorem commentText_prefix : ∀ text : List Char, Piece.commentText text <+: text
  | [] => List.prefix_rfl
  | c :: rest => by
    unfold Piece.commentText
    split
    · exact List.nil_prefix
    · rename_i tail heq
      cases heq
      simpa using commentText_prefix tail
    · exact List.nil_prefix
    · rename_i d tail _ _ heq
      cases heq
      simpa using commentText_prefix rest

theorem eq_append_of_stringText : ∀ {text written : List Char}, Piece.stringText? text = some written →
    ∃ rest, text = written ++ '"' :: rest
  | [], _, h => by cases h
  | c :: text, written, h => by
    unfold Piece.stringText? at h
    split at h
    · cases h
    · rename_i rest heq
      cases heq
      cases h
      exact ⟨text, rfl⟩
    · rename_i d tail heq
      cases heq
      split at h
      · cases h
      · obtain ⟨w, hw, rfl⟩ := Option.map_eq_some_iff.1 h
        obtain ⟨rest, rfl⟩ := eq_append_of_stringText hw
        exact ⟨rest, rfl⟩
    · rename_i d tail _ _ heq
      cases heq
      split at h
      · cases h
      · obtain ⟨w, hw, rfl⟩ := Option.map_eq_some_iff.1 h
        obtain ⟨rest, rfl⟩ := eq_append_of_stringText hw
        exact ⟨rest, rfl⟩

theorem text_ofSymbol (c : Char) (rest : List Char) : ∃ w, (Piece.ofSymbol c rest).text = c :: w ∧ w <+: rest := by
  unfold Piece.ofSymbol
  split
  · exact ⟨['='], rfl, by simp⟩
  · exact ⟨['='], rfl, by simp⟩
  · exact ⟨[], rfl, List.nil_prefix⟩

/-- A piece is the beginning of what lies ahead, and it is not empty. -/
theorem text_first (before : Option Char) (c : Char) (rest : List Char) :
    ∃ w, (Piece.first before c rest).text = c :: w ∧ w <+: rest := by
  unfold Piece.first
  by_cases hblank : Text.isBlank c = true
  · rw [if_pos hblank]
    exact ⟨[], rfl, List.nil_prefix⟩
  rw [if_neg hblank]
  by_cases hslash : c = '/' ∧ rest.head? = some '/'
  · rw [if_pos hslash]
    exact ⟨_, rfl, commentText_prefix rest⟩
  rw [if_neg hslash]
  by_cases hword : Piece.isWordStart c = true
  · rw [if_pos hword]
    exact ⟨_, rfl, List.takeWhile_prefix _⟩
  rw [if_neg hword]
  by_cases hdigit : Text.isDigit c = true
  · rw [if_pos hdigit]
    exact ⟨_, rfl, List.takeWhile_prefix _⟩
  rw [if_neg hdigit]
  by_cases hquote : c = '"'
  · rw [if_pos hquote]
    split
    · rename_i written hwritten
      obtain ⟨tail, rfl⟩ := eq_append_of_stringText hwritten
      exact ⟨written ++ ['"'], by rw [hquote]; rfl, by simp⟩
    · exact ⟨[], rfl, List.nil_prefix⟩
  · rw [if_neg hquote]
    exact text_ofSymbol c rest

theorem length_text_first (before : Option Char) (c : Char) (rest : List Char) :
    (Piece.first before c rest).text.length - 1 ≤ rest.length := by
  obtain ⟨w, htext, hprefix⟩ := text_first before c rest
  simpa [htext] using hprefix.length_le

theorem text_piecesFrom (text : List Char) : ∀ (before : Option Char) (skip : Nat),
    (piecesFrom before skip text).flatMap Piece.text = text.drop skip := by
  induction text with
  | nil => simp [piecesFrom]
  | cons c rest ih =>
    intro before skip
    cases skip with
    | succ skip => rw [piecesFrom, ih, List.drop_succ_cons]
    | zero =>
      obtain ⟨w, htext, tail, htail⟩ := text_first before c rest
      rw [piecesFrom, List.flatMap_cons, ih, htext, ← htail]
      simp

/-- **Nothing of a text is lost**: its pieces, put together, are the text. -/
theorem text_pieces (text : List Char) : (pieces text).flatMap Piece.text = text :=
  text_piecesFrom text none 0

/-! ## A line feed ends every piece -/

/-- A text that a line feed behind it ends as well: no backslash carries it over. -/
def Closed (text : List Char) : Prop := text.getLast? ≠ some '\\'

instance (text : List Char) : Decidable (Closed text) := inferInstanceAs (Decidable (_ ≠ _))

theorem Closed.tail {c : Char} {text : List Char} (h : Closed (c :: text)) : Closed text := by
  unfold Closed at *
  cases text with
  | nil => simp
  | cons d text => rwa [List.getLast?_cons_cons] at h

theorem commentText_cons {c : Char} {rest : List Char} (hcarry : c = '\\' → rest.head? ≠ some '\n') (hfeed : c ≠ '\n') :
    Piece.commentText (c :: rest) = c :: Piece.commentText rest := by
  rw [Piece.commentText]
  · rintro tail rfl rfl
    exact hcarry rfl rfl
  · exact hfeed

theorem stringText_cons {c : Char} {rest : List Char} (hquote : c ≠ '"') (hback : c ≠ '\\') :
    Piece.stringText? (c :: rest) =
      if c = '\n' ∨ c = '\r' then none else (Piece.stringText? rest).map (c :: ·) := by
  rw [Piece.stringText?] <;> simp [hquote, hback]

variable (below : List Char)

theorem commentText_line : ∀ {text : List Char}, Closed text →
    Piece.commentText (text ++ '\n' :: below) = Piece.commentText text
  | [], _ => rfl
  | [c], h => by
    have hc : c ≠ '\\' := fun hc => h (by rw [hc]; rfl)
    by_cases hfeed : c = '\n'
    · subst hfeed
      rfl
    · rw [commentText_cons (by simp) hfeed]
      exact commentText_cons (fun h => absurd h hc) hfeed
  | c :: d :: text, h => by
    by_cases hback : c = '\\' ∧ d = '\n'
    · obtain ⟨rfl, rfl⟩ := hback
      simp [Piece.commentText, commentText_line h.tail.tail]
    · by_cases hfeed : c = '\n'
      · subst hfeed
        rfl
      · have hcarry : c = '\\' → d ≠ '\n' := fun hc hd => hback ⟨hc, hd⟩
        rw [commentText_cons (by simpa using hcarry) hfeed, ← commentText_line h.tail]
        exact commentText_cons (by simpa using hcarry) hfeed

theorem stringText_line : ∀ text : List Char,
    Piece.stringText? (text ++ '\n' :: below) = Piece.stringText? text
  | [] => by simp [Piece.stringText?]
  | c :: text => by
    by_cases hquote : c = '"'
    · subst hquote
      rfl
    by_cases hback : c = '\\'
    · subst hback
      cases text with
      | nil => rfl
      | cons d text => simp only [List.cons_append, Piece.stringText?, stringText_line text]
    · rw [List.cons_append, stringText_cons hquote hback, stringText_cons hquote hback, stringText_line text]

theorem takeWhile_line {p : Char → Bool} (hp : p '\n' = false) (text : List Char) :
    (text ++ '\n' :: below).takeWhile p = text.takeWhile p := by
  induction text with
  | nil => simp [hp]
  | cons c text ih => simp [List.takeWhile_cons, ih]

theorem ofSymbol_line (c : Char) (rest : List Char) :
    Piece.ofSymbol c (rest ++ '\n' :: below) = Piece.ofSymbol c rest := by
  cases rest with
  | nil => simp [Piece.ofSymbol]
  | cons d rest =>
    rw [List.cons_append]
    unfold Piece.ofSymbol
    split <;> simp_all

theorem first_line (before : Option Char) {c : Char} {rest : List Char} (h : Closed (c :: rest)) :
    Piece.first before c (rest ++ '\n' :: below) = Piece.first before c rest := by
  have hhead : (rest ++ '\n' :: below).head? = some '/' ↔ rest.head? = some '/' := by
    cases rest <;> simp
  unfold Piece.first
  simp only [hhead, commentText_line below h.tail, stringText_line below, ofSymbol_line below,
    takeWhile_line below (p := Piece.isWordChar) (by decide), takeWhile_line below (p := Text.isDigit) (by decide)]

/-- **A line feed ends every piece before it.** -/
theorem pieces_line : ∀ (text : List Char) (before : Option Char) (skip : Nat), Closed text → skip ≤ text.length →
    piecesFrom before skip (text ++ '\n' :: below) = piecesFrom before skip text ++ .blank '\n' :: pieces below
  | [], before, skip, _, hskip => by
    rw [Nat.le_zero.1 hskip]
    show Piece.blank '\n' :: piecesFrom (some '\n') 0 below = _
    rw [piecesFrom_before (.inl (by decide))]
    rfl
  | c :: rest, before, skip + 1, h, hskip =>
    pieces_line rest (some c) skip h.tail (Nat.le_of_succ_le_succ hskip)
  | c :: rest, before, 0, h, _ => by
    have hrest := pieces_line rest (some c) _ h.tail (length_text_first before c rest)
    simp only [List.cons_append, piecesFrom, first_line below before h, hrest]

/-! ## Tabs -/

theorem expandFrom_line (text : List Char) : ∀ n : Nat,
    Text.Tab.expandFrom n (text ++ '\n' :: below) = Text.Tab.expandFrom n text ++ '\n' :: Text.Tab.expand below := by
  induction text with
  | nil => intro n; simp [Text.Tab.expandFrom, Text.Tab.expand]
  | cons c text ih =>
    intro n
    simp only [List.cons_append, Text.Tab.expandFrom, ih]
    split
    · simp
    · split <;> simp

theorem closed_expandFrom (text : List Char) : ∀ n : Nat, Closed text → Closed (Text.Tab.expandFrom n text) := by
  induction text with
  | nil => intro n h; simpa [Text.Tab.expandFrom] using h
  | cons c text ih =>
    intro n h
    have hcons : ∀ m, Closed (c :: Text.Tab.expandFrom m text) := by
      intro m
      have htail := ih m h.tail
      unfold Closed at htail h ⊢
      rw [List.getLast?_cons] at h ⊢
      cases hlast : (Text.Tab.expandFrom m text).getLast? with
      | some d => simpa [hlast] using htail
      | none =>
        have hnil : text = [] := by
          have hempty := List.getLast?_eq_none_iff.1 hlast
          cases text with
          | nil => rfl
          | cons d text =>
            unfold Text.Tab.expandFrom at hempty
            split at hempty
            · have hpos : 0 < Text.Tab.width - m % Text.Tab.width := Nat.sub_pos_of_lt (Nat.mod_lt _ (by decide))
              simp at hempty
              omega
            · split at hempty <;> cases hempty
        subst hnil
        simpa using h
    unfold Text.Tab.expandFrom
    split
    · have htail := ih (n + (Text.Tab.width - n % Text.Tab.width)) h.tail
      unfold Closed at htail ⊢
      rw [List.getLast?_append]
      cases hlast : (Text.Tab.expandFrom (n + (Text.Tab.width - n % Text.Tab.width)) text).getLast? with
      | some d => simpa [hlast] using htail
      | none => simp [List.getLast?_replicate]
    · split
      · exact hcons 0
      · exact hcons (n + 1)

theorem count_expandFrom (text : List Char) : ∀ n : Nat,
    (Text.Tab.expandFrom n text).count '\n' = text.count '\n' := by
  induction text with
  | nil => intro n; rfl
  | cons c text ih =>
    intro n
    unfold Text.Tab.expandFrom
    split
    · rename_i htab
      subst htab
      rw [List.count_append, ih, List.count_cons_of_ne (by decide), List.count_replicate]
      simp
    · split <;> simp [List.count_cons, ih]

/-! ## Places -/

namespace Pos

/-- A place so many lines further down. -/
def down (k : Nat) (p : Pos) : Pos := ⟨p.line + k, p.column⟩

theorem after_down (k : Nat) (text : List Char) : ∀ p : Pos, (p.down k).after text = (p.after text).down k := by
  induction text with
  | nil => intro p; rfl
  | cons c text ih =>
    intro p
    have hstep : (p.down k).step c = (p.step c).down k := by
      unfold step down
      split
      · simp only [Pos.mk.injEq, and_true]
        omega
      · rfl
    show ((p.down k).step c).after text = ((p.step c).after text).down k
    rw [hstep, ih]

theorem line_after (text : List Char) : ∀ p : Pos, (p.after text).line = p.line + text.count '\n' := by
  induction text with
  | nil => intro p; rfl
  | cons c text ih =>
    intro p
    show ((p.step c).after text).line = _
    rw [ih, List.count_cons]
    unfold step
    by_cases hc : c = '\n'
    · simp [hc]
      omega
    · simp [hc]

theorem after_append (p : Pos) (text text' : List Char) : p.after (text ++ text') = (p.after text).after text' :=
  List.foldl_append

/-- Within a line, a place moves on by a column with every character. -/
theorem after_line : ∀ {text : List Char}, '\n' ∉ text → ∀ p : Pos, p.after text = ⟨p.line, p.column + text.length⟩
  | [], _, _ => rfl
  | c :: text, h, p => by
    have hc : c ≠ '\n' := fun hc => h (hc ▸ List.mem_cons_self)
    have htext : '\n' ∉ text := fun hmem => h (List.mem_cons_of_mem _ hmem)
    have hstep : p.step c = ⟨p.line, p.column + 1⟩ := if_neg hc
    show (p.step c).after text = _
    rw [hstep, after_line htext, List.length_cons, Nat.add_right_comm, Nat.add_assoc]

end Pos

theorem tokensFrom_append (ps qs : List Piece) : ∀ pos : Pos, Piece.tokensFrom pos (ps ++ qs) =
    Piece.tokensFrom pos ps ++ Piece.tokensFrom (pos.after (ps.flatMap Piece.text)) qs := by
  induction ps with
  | nil => intro pos; rfl
  | cons piece ps ih =>
    intro pos
    rw [List.cons_append, List.flatMap_cons, Pos.after_append]
    cases piece <;> simp [Piece.tokensFrom, Piece.text, ih]

theorem tokensFrom_down (k : Nat) (ps : List Piece) : ∀ pos : Pos, Piece.tokensFrom (pos.down k) ps =
    (Piece.tokensFrom pos ps).map (Token.relocate (Pos.down k)) := by
  induction ps with
  | nil => intro pos; rfl
  | cons piece ps ih =>
    intro pos
    cases piece <;> simp [Piece.tokensFrom, Piece.text, Pos.after_down, ih, Token.relocate]

/-- **Line by line**: behind a line feed, the tokens of a text are those of the text alone, further down by the lines
before it. -/
theorem TokenStream.ofSource_append_line {s : String} (hs : Closed s.toList) (s' : String) :
    ofSource (s ++ "\n" ++ s') =
      ⟨(ofSource s).ahead ++ (ofSource s').ahead.map (Token.relocate (Pos.down (s.toList.count '\n' + 1))),
        (ofSource s').endPos.down (s.toList.count '\n' + 1)⟩ := by
  have htext : (s ++ "\n" ++ s').toList = s.toList ++ '\n' :: s'.toList := by simp
  -- the place behind the line feed is the first of its line, whatever stands before
  have hbelow : ∀ text : List Char, text.count '\n' = s.toList.count '\n' →
      (Pos.start.after text).step '\n' = Pos.start.down (s.toList.count '\n' + 1) := by
    intro text hcount
    have hline := Pos.line_after text .start
    simp only [Pos.step, Pos.down, Pos.start] at hline ⊢
    simp only [if_true, hline, hcount]
    simp only [Pos.mk.injEq, and_true]
    omega
  have hahead : (ofSource (s ++ "\n" ++ s')).ahead =
      (ofSource s).ahead ++ (ofSource s').ahead.map (Token.relocate (Pos.down (s.toList.count '\n' + 1))) := by
    show Piece.tokensFrom .start (pieces (Text.Tab.expand _)) = _
    have hexpand : Text.Tab.expand (s.toList ++ '\n' :: s'.toList) =
        Text.Tab.expand s.toList ++ '\n' :: Text.Tab.expand s'.toList := expandFrom_line _ _ 0
    have hpieces : pieces (Text.Tab.expand s.toList ++ '\n' :: Text.Tab.expand s'.toList) =
        pieces (Text.Tab.expand s.toList) ++ .blank '\n' :: pieces (Text.Tab.expand s'.toList) :=
      pieces_line _ _ none 0 (closed_expandFrom _ 0 hs) (Nat.zero_le _)
    rw [htext, hexpand, hpieces, tokensFrom_append, text_pieces]
    have hstep := hbelow (Text.Tab.expand s.toList) (count_expandFrom _ 0)
    show _ ++ Piece.tokensFrom ((Pos.start.after (Text.Tab.expand s.toList)).step '\n') _ = _
    rw [hstep, tokensFrom_down]
    rfl
  have hend : (ofSource (s ++ "\n" ++ s')).endPos = (ofSource s').endPos.down (s.toList.count '\n' + 1) := by
    show Pos.start.after (s ++ "\n" ++ s').toList = _
    rw [htext, Pos.after_append]
    show ((Pos.start.after s.toList).step '\n').after s'.toList = _
    rw [hbelow s.toList rfl, Pos.after_down]
    rfl
  rw [← hahead, ← hend]

end Monkey
