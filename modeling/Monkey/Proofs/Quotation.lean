import Monkey.Proofs.Lossless
import Monkey.Proofs.Tabs
import Monkey.Session.Submission
/-!
# Text between quotes

A text with no quote, no backslash and no line end in it can be written between quotes as it stands.  All of it is read
as one string literal, and no character of it has a meaning of its own there, white space and slashes included
(`read_quotation`).  Tabs are the exception.  They are expanded before the source is cut into pieces, so a tab between
quotes is read as spaces, how many of them depends on the column where it stands, and no literal has the text that was
written unless that text has no tab in it.
-/
namespace Monkey

/-- A text that needs no escapes between quotes. -/
def Verbatim (text : List Char) : Prop := ∀ c ∈ text, c ∉ ['"', '\\', '\n', '\r']

/-- A text between quotes, behind so many spaces. -/
def quotation (indent : Nat) (text : String) : String :=
  String.ofList (List.replicate indent ' ' ++ '"' :: (text.toList ++ ['"']))

namespace Verbatim

variable {c : Char} {text : List Char}

theorem tail (h : Verbatim (c :: text)) : Verbatim text := fun d hd => h d (List.mem_cons_of_mem _ hd)

theorem ne (h : Verbatim (c :: text)) : c ≠ '"' ∧ c ≠ '\\' ∧ ¬(c = '\n' ∨ c = '\r') := by
  have hc := h c List.mem_cons_self
  simp only [List.mem_cons, List.not_mem_nil, or_false, not_or] at hc ⊢
  exact hc

theorem line (h : Verbatim text) : '\n' ∉ text := fun hmem => absurd (h _ hmem) (by decide)

/-- The first quote behind the text closes the literal. -/
theorem stringText : ∀ {text : List Char}, Verbatim text → ∀ rest : List Char,
    Piece.stringText? (text ++ '"' :: rest) = some text
  | [], _, _ => rfl
  | c :: text, h, rest => by
    obtain ⟨hquote, hback, hend⟩ := h.ne
    rw [List.cons_append, stringText_cons hquote hback, if_neg hend, h.tail.stringText]
    rfl

theorem decode : ∀ {text : List Char}, Verbatim text → Text.Escape.decode text = text
  | [], _ => rfl
  | c :: text, h => by
    rw [Text.Escape.decode, h.tail.decode] <;> simp [h.ne.2.1]

/-- The spaces in the place of a tab need no escapes either. -/
theorem expandFrom (h : Verbatim text) (n : Nat) : Verbatim (Text.Tab.expandFrom n text) := fun d hd => by
  rcases (Text.Tab.mem_expandFrom text hd).2 with hmem | ⟨rfl, -⟩
  · exact h d hmem
  · decide

end Verbatim

/-! ## The scan -/

theorem tokensFrom_spaces (text : List Char) : ∀ (k : Nat) (pos : Pos),
    Piece.tokensFrom pos (pieces (List.replicate k ' ' ++ text)) =
      Piece.tokensFrom ⟨pos.line, pos.column + k⟩ (pieces text)
  | 0, _ => rfl
  | k + 1, pos => by
    have hbehind : piecesFrom (some ' ') 0 (List.replicate k ' ' ++ text) = pieces (List.replicate k ' ' ++ text) :=
      piecesFrom_before (.inl (by decide))
    have hpieces : pieces (' ' :: (List.replicate k ' ' ++ text)) =
        .blank ' ' :: pieces (List.replicate k ' ' ++ text) := congrArg (Piece.blank ' ' :: ·) hbehind
    have hplace : pos.after [' '] = ⟨pos.line, pos.column + 1⟩ := Pos.after_line (by decide) pos
    rw [List.replicate_succ, List.cons_append, hpieces]
    show Piece.tokensFrom (pos.after [' ']) _ = _
    rw [hplace, tokensFrom_spaces text k, Nat.add_right_comm, Nat.add_assoc]

/-- Between quotes, the text is one piece. -/
theorem pieces_verbatim {text : List Char} (h : Verbatim text) :
    pieces ('"' :: (text ++ ['"'])) = [.lexeme .string ('"' :: text ++ ['"']) (String.ofList text)] := by
  have hfirst : Piece.first none '"' (text ++ ['"']) =
      .lexeme .string ('"' :: text ++ ['"']) (String.ofList text) := by
    unfold Piece.first
    rw [if_neg (by decide), if_neg (fun h => absurd h.1 (by decide)), if_neg (by decide), if_neg (by decide),
      if_pos rfl, h.stringText]
    show Piece.lexeme _ _ _ = _
    rw [h.decode]
  have hskip := piecesFrom_skip (text ++ ['"']) (some '"') []
  rw [List.append_nil] at hskip
  show Piece.first none '"' (text ++ ['"']) :: piecesFrom (some '"') _ _ = _
  rw [hfirst]
  show _ :: piecesFrom (some '"') (text ++ ['"']).length _ = _
  rw [hskip]
  rfl

theorem expand_quotation (indent : Nat) (text : String) : Text.Tab.expand (quotation indent text).toList =
    List.replicate indent ' ' ++ '"' :: (Text.Tab.expandFrom (indent + 1) text.toList ++ ['"']) := by
  rw [quotation, String.toList_ofList, Text.Tab.expand, Text.Tab.expandFrom_spaces, Nat.zero_add,
    Text.Tab.expandFrom_cons (by decide), Text.Tab.expandFrom_append, Text.Tab.expandFrom_cons (by decide)]
  rfl

/-- The text that is read: the tabs of it are spaces, up to the columns where it stands. -/
def readFrom (indent : Nat) (text : String) : String :=
  String.ofList (Text.Tab.expandFrom (indent + 1) text.toList)

theorem ofSource_quotation (indent : Nat) {text : String} (h : Verbatim text.toList) :
    TokenStream.ofSource (quotation indent text) =
      ⟨[⟨.string, readFrom indent text, ⟨1, indent + 1⟩⟩], ⟨1, indent + text.length + 3⟩⟩ := by
  have hahead : (TokenStream.ofSource (quotation indent text)).ahead =
      [⟨.string, readFrom indent text, ⟨1, indent + 1⟩⟩] := by
    show Piece.tokensFrom .start (pieces (Text.Tab.expand (quotation indent text).toList)) = _
    rw [expand_quotation, tokensFrom_spaces, pieces_verbatim (h.expandFrom _)]
    show [Token.mk .string (readFrom indent text) ⟨1, 1 + indent⟩] = _
    rw [Nat.add_comm 1 indent]
  have hline : '\n' ∉ (quotation indent text).toList := by
    simp [quotation, h.line, List.mem_replicate]
  have hend : (TokenStream.ofSource (quotation indent text)).endPos = ⟨1, indent + text.length + 3⟩ := by
    show Pos.start.after (quotation indent text).toList = _
    rw [Pos.after_line hline]
    simp only [quotation, String.toList_ofList, List.length_append, List.length_replicate, List.length_cons,
      List.length_nil, String.length_toList, Pos.start, Pos.mk.injEq, true_and]
    omega
  rw [← hahead, ← hend]

theorem readFrom_eq_iff {indent : Nat} {text : String} : readFrom indent text = text ↔ '\t' ∉ text.toList := by
  rw [← Text.Tab.expandFrom_eq_self_iff, ← String.toList_inj, readFrom, String.toList_ofList]

/-! ## The value -/

/-- The program of a single string literal. -/
theorem ofStream_string (text : String) (pos endPos : Pos) :
    Parsed.ofStream ⟨[⟨.string, text, pos⟩], endPos⟩ =
      ⟨⟨⟨.string, text, pos⟩, [.expr ⟨.string, text, pos⟩ (.str pos text)]⟩, [],
        (Parsed.ofStream ⟨[⟨.string, text, pos⟩], endPos⟩).marks⟩ := rfl

/-- **A text between quotes is one string**, wherever it stands: its only token and the value of its program are the
text with its tabs expanded.  That is the text itself just if it has no tabs. -/
theorem read_quotation (indent : Nat) {text : String} (h : Verbatim text.toList) :
    tokenize (quotation indent text) =
        [⟨.string, readFrom indent text, ⟨1, indent + 1⟩⟩, .atEnd ⟨1, indent + text.length + 3⟩] ∧
      (parse (quotation indent text)).errors = [] ∧
      (∀ (depth : Nat) (s : ScopeId) (w : World), ∃ log,
        Eval.evaluate (depth + 3) (.program (parse (quotation indent text)).program) s w =
          .value (.str (readFrom indent text)) { w with log := log }) ∧
      (readFrom indent text = text ↔ '\t' ∉ text.toList) := by
  have hstream := ofSource_quotation indent h
  have hparse : parse (quotation indent text) = Parsed.ofStream _ := congrArg Parsed.ofStream hstream
  rw [ofStream_string] at hparse
  refine ⟨?_, ?_, fun depth s w => ?_, readFrom_eq_iff⟩
  · rw [tokenize, hstream]
    rfl
  · rw [hparse]
    rfl
  · rw [hparse]
    exact ⟨_, rfl⟩

/-- Two slashes and a question mark behind three spaces. -/
theorem read_quotation_slashes : Verbatim "//?".toList ∧
    tokenize "   \"//?\"" = [⟨.string, "//?", ⟨1, 4⟩⟩, .atEnd ⟨1, 9⟩] ∧
    ∃ log, Eval.evaluate 3 (.program (parse "   \"//?\"").program) 0 .empty =
      .value (.str "//?") { World.empty with log := log } := by
  have h : Verbatim "//?".toList := by simp [Verbatim]
  obtain ⟨htokens, -, hvalue, -⟩ := read_quotation 3 h
  exact ⟨h, htokens, hvalue 0 0 .empty⟩

/-- A tab in the third column is read as six spaces. -/
theorem read_quoted_tab : Verbatim "a\tb".toList ∧ quotation 0 "a\tb" = "\"a\tb\"" ∧
    tokenize "\"a\tb\"" = [⟨.string, "a      b", ⟨1, 1⟩⟩, .atEnd ⟨1, 6⟩] ∧
    (∃ log, Eval.evaluate 3 (.program (parse "\"a\tb\"").program) 0 .empty =
      .value (.str "a      b") { World.empty with log := log }) ∧ "a      b" ≠ "a\tb" :=
  ⟨by simp [Verbatim], by decide, by decide +kernel, ⟨_, rfl⟩, by decide⟩

end Monkey
