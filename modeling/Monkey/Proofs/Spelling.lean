import Monkey.Ast.Render
import Monkey.Proofs.Scan
import Monkey.Parser.Grammar
/-!
# Well-formed trees and how they are spelled

The trees that a parser can build, the lexemes that their renderings consist of (`Expr.spell`), and the proof that the
scanner finds just these lexemes in a rendering (`Program.scans`).  Every rendering can stand in front of anything
that is not a word character, and it never begins with an equals sign, so the operator before it ends there.
-/
namespace Monkey

open Piece (isWordStart isWordChar)

/-- A letter or an underscore, and then letters, digits and underscores. -/
def isWord (text : String) : Bool :=
  match text.toList with
  | [] => false
  | c :: w => isWordStart c && w.all isWordChar

/-- One digit or more. -/
def isNumber (text : String) : Bool := Text.isDigits text.toList

/-- A name that is spelled like a word and is not reserved. -/
def Ident.wellFormed (id : Ident) : Bool := isWord id.name && Kind.ofWord id.name == .ident

mutual

/-- A tree that the parser can build: its names are no reserved words, its numbers are in range. -/
def Expr.wellFormed : Expr → Bool
  | .ident id => id.wellFormed
  | .int _ literal value => isNumber literal && Parse.integer? literal == some value
  | .bool _ _ => true
  | .str _ _ => true
  | .array _ elements => Expr.wellFormedAll elements
  | .hash _ pairs => Expr.wellFormedPairs pairs
  | .unary _ _ operand => operand.wellFormed
  | .binary _ _ left right => left.wellFormed && right.wellFormed
  | .cond _ condition consequence none => condition.wellFormed && consequence.wellFormed
  | .cond _ condition consequence (some alternative) =>
    condition.wellFormed && consequence.wellFormed && alternative.wellFormed
  | .fn _ params body => params.all Ident.wellFormed && body.wellFormed
  | .call _ callee args => callee.wellFormed && Expr.wellFormedAll args
  | .index _ left index => left.wellFormed && index.wellFormed

def Expr.wellFormedAll : List Expr → Bool
  | [] => true
  | e :: rest => e.wellFormed && Expr.wellFormedAll rest

def Expr.wellFormedPairs : List (Expr × Expr) → Bool
  | [] => true
  | (key, value) :: rest => key.wellFormed && value.wellFormed && Expr.wellFormedPairs rest

def Stmt.wellFormed : Stmt → Bool
  | .expr _ value => value.wellFormed
  | .bind _ name value => name.wellFormed && value.wellFormed
  | .ret _ none => true
  | .ret _ (some value) => value.wellFormed

def Stmt.wellFormedAll : List Stmt → Bool
  | [] => true
  | s :: rest => s.wellFormed && Stmt.wellFormedAll rest

def Block.wellFormed : Block → Bool
  | .mk _ statements => Stmt.wellFormedAll statements

end

def Program.wellFormed (p : Program) : Bool := Stmt.wellFormedAll p.statements

/-- Lists of lexemes with the lexeme of a separator between each and the next. -/
def joined (separator : Kind) (items : List (List Lexeme)) : List Lexeme := [.fixed separator].intercalate items

/-- The lexeme of a name. -/
def Ident.lexeme (id : Ident) : Lexeme := ⟨.ident, id.name⟩

mutual

/-- The lexemes of a rendering. -/
def Expr.spell : Expr → List Lexeme
  | .ident id => [id.lexeme]
  | .int _ literal _ => [⟨.int, literal⟩]
  | .bool _ value => [.fixed (if value then .trueWord else .falseWord)]
  | .str _ text => [⟨.string, text⟩]
  | .array _ elements => .fixed .lbracket :: (joined .comma (Expr.spellAll elements) ++ [.fixed .rbracket])
  | .hash _ pairs => .fixed .lbrace :: (joined .comma (Expr.spellPairs pairs) ++ [.fixed .rbrace])
  | .unary _ op operand => .fixed .lparen :: .fixed op.kind :: (operand.spell ++ [.fixed .rparen])
  | .binary _ op left right =>
    .fixed .lparen :: (left.spell ++ .fixed op.kind :: (right.spell ++ [.fixed .rparen]))
  | .cond _ condition consequence none =>
    .fixed .ifWord :: .fixed .lparen :: (condition.spell ++ .fixed .rparen :: consequence.spell)
  | .cond _ condition consequence (some alternative) =>
    .fixed .ifWord :: .fixed .lparen ::
      (condition.spell ++ .fixed .rparen :: (consequence.spell ++ .fixed .elseWord :: alternative.spell))
  | .fn _ params body =>
    .fixed .fnWord :: .fixed .lparen ::
      (joined .comma (params.map fun id => [id.lexeme]) ++ .fixed .rparen :: body.spell)
  | .call _ callee args =>
    callee.spell ++ .fixed .lparen :: (joined .comma (Expr.spellAll args) ++ [.fixed .rparen])
  | .index _ left index =>
    .fixed .lparen :: (left.spell ++ .fixed .lbracket :: (index.spell ++ [.fixed .rbracket, .fixed .rparen]))

def Expr.spellAll : List Expr → List (List Lexeme)
  | [] => []
  | e :: rest => e.spell :: Expr.spellAll rest

def Expr.spellPairs : List (Expr × Expr) → List (List Lexeme)
  | [] => []
  | (key, value) :: rest => (key.spell ++ .fixed .colon :: value.spell) :: Expr.spellPairs rest

def Stmt.spell : Stmt → List Lexeme
  | .expr _ value => value.spell
  | .bind _ name value => .fixed .letWord :: name.lexeme :: .fixed .assign :: value.spell
  | .ret _ none => [.fixed .returnWord]
  | .ret _ (some value) => .fixed .returnWord :: value.spell

def Stmt.spellAll : List Stmt → List (List Lexeme)
  | [] => []
  | s :: rest => s.spell :: Stmt.spellAll rest

def Block.spell : Block → List Lexeme
  | .mk _ statements => .fixed .lbrace :: (joined .semicolon (Stmt.spellAll statements) ++ [.fixed .rbrace])

end

def Program.spell (p : Program) : List Lexeme := joined .semicolon (Stmt.spellAll p.statements)

/-- The lexemes of a pair of a hash literal. -/
def Expr.spellPair (pair : Expr × Expr) : List Lexeme := pair.1.spell ++ .fixed .colon :: pair.2.spell

/-- The rendering of a pair of a hash literal. -/
def Expr.renderPair (pair : Expr × Expr) : String := pair.1.render ++ ": " ++ pair.2.render

theorem Expr.renderAll_eq (es : List Expr) : Expr.renderAll es = es.map Expr.render := by
  induction es with
  | nil => rfl
  | cons e es ih => rw [Expr.renderAll, ih, List.map_cons]

theorem Expr.renderPairs_eq (pairs : List (Expr × Expr)) : Expr.renderPairs pairs = pairs.map Expr.renderPair := by
  induction pairs with
  | nil => rfl
  | cons pair pairs ih => rw [Expr.renderPairs, ih, List.map_cons]; rfl

theorem Stmt.renderAll_eq (statements : List Stmt) : Stmt.renderAll statements = statements.map Stmt.render := by
  induction statements with
  | nil => rfl
  | cons s statements ih => rw [Stmt.renderAll, ih, List.map_cons]

theorem Expr.spellAll_eq (es : List Expr) : Expr.spellAll es = es.map Expr.spell := by
  induction es with
  | nil => rfl
  | cons e es ih => rw [Expr.spellAll, ih, List.map_cons]

theorem Expr.spellPairs_eq (pairs : List (Expr × Expr)) : Expr.spellPairs pairs = pairs.map Expr.spellPair := by
  induction pairs with
  | nil => rfl
  | cons pair pairs ih => rw [Expr.spellPairs, ih, List.map_cons]; rfl

theorem Stmt.spellAll_eq (statements : List Stmt) : Stmt.spellAll statements = statements.map Stmt.spell := by
  induction statements with
  | nil => rfl
  | cons s statements ih => rw [Stmt.spellAll, ih, List.map_cons]

/-! ## Pieces of renderings -/

/-- A text without tabs is scanned into lexemes, in front of anything that is not a word character. -/
structure Scans (text : String) (ls : List Lexeme) : Prop where
  noTab : '\t' ∉ text.toList
  scan : ∀ rest, Clear rest → scan (text.toList ++ rest) = ls ++ scan rest

section

variable (rest : List Char)

theorem scan_delimiter {c : Char} {kind : Kind} (hc : Kind.ofChar? c = some kind) (h : c ≠ '/' ∧ c ≠ '=' ∧ c ≠ '!') :
    scan (c :: rest) = .fixed kind :: scan rest :=
  scan_symbol hc (fun hs => absurd hs h.1) fun hs => hs.elim (fun hs => absurd hs h.2.1) fun hs => absurd hs h.2.2

@[simp] theorem scan_lparen : scan ('(' :: rest) = .fixed .lparen :: scan rest := scan_delimiter rest rfl (by decide)
@[simp] theorem scan_rparen : scan (')' :: rest) = .fixed .rparen :: scan rest := scan_delimiter rest rfl (by decide)
@[simp] theorem scan_lbrace : scan ('{' :: rest) = .fixed .lbrace :: scan rest := scan_delimiter rest rfl (by decide)
@[simp] theorem scan_rbrace : scan ('}' :: rest) = .fixed .rbrace :: scan rest := scan_delimiter rest rfl (by decide)
@[simp] theorem scan_lbracket : scan ('[' :: rest) = .fixed .lbracket :: scan rest :=
  scan_delimiter rest rfl (by decide)
@[simp] theorem scan_rbracket : scan (']' :: rest) = .fixed .rbracket :: scan rest :=
  scan_delimiter rest rfl (by decide)
@[simp] theorem scan_comma : scan (',' :: rest) = .fixed .comma :: scan rest := scan_delimiter rest rfl (by decide)
@[simp] theorem scan_colon : scan (':' :: rest) = .fixed .colon :: scan rest := scan_delimiter rest rfl (by decide)
@[simp] theorem scan_semicolon : scan (';' :: rest) = .fixed .semicolon :: scan rest :=
  scan_delimiter rest rfl (by decide)

@[simp] theorem clear_cons_iff {c : Char} : Clear (c :: rest) ↔ isWordChar c = false := by simp [Clear]

variable {rest} (h : Clear rest)
include h

@[simp] theorem scan_if : scan ('i' :: 'f' :: rest) = .fixed .ifWord :: scan rest :=
  scan_word (w := ['f']) rfl rfl h

@[simp] theorem scan_else : scan ('e' :: 'l' :: 's' :: 'e' :: rest) = .fixed .elseWord :: scan rest :=
  scan_word (w := ['l', 's', 'e']) rfl rfl h

@[simp] theorem scan_fn : scan ('f' :: 'n' :: rest) = .fixed .fnWord :: scan rest :=
  scan_word (w := ['n']) rfl rfl h

@[simp] theorem scan_let : scan ('l' :: 'e' :: 't' :: rest) = .fixed .letWord :: scan rest :=
  scan_word (w := ['e', 't']) rfl rfl h

@[simp] theorem scan_return :
    scan ('r' :: 'e' :: 't' :: 'u' :: 'r' :: 'n' :: rest) = .fixed .returnWord :: scan rest :=
  scan_word (w := ['e', 't', 'u', 'r', 'n']) rfl rfl h

@[simp] theorem scan_true : scan ('t' :: 'r' :: 'u' :: 'e' :: rest) = .fixed .trueWord :: scan rest :=
  scan_word (w := ['r', 'u', 'e']) rfl rfl h

@[simp] theorem scan_false : scan ('f' :: 'a' :: 'l' :: 's' :: 'e' :: rest) = .fixed .falseWord :: scan rest :=
  scan_word (w := ['a', 'l', 's', 'e']) rfl rfl h

end

/-- An operator with a space behind it. -/
theorem BinaryOp.scan_spelling (op : BinaryOp) (rest : List Char) :
    scan (op.spelling.toList ++ ' ' :: rest) = .fixed op.kind :: scan rest := by
  rw [← scan_space rest]
  cases op
  · exact scan_delimiter _ rfl (by decide)
  · exact scan_delimiter _ rfl (by decide)
  · exact scan_delimiter _ rfl (by decide)
  · exact scan_symbol rfl (by simp) (by simp)
  · exact scan_delimiter _ rfl (by decide)
  · exact scan_delimiter _ rfl (by decide)
  · exact scan_equal _
  · exact scan_notEqual _

theorem UnaryOp.scan_spelling (op : UnaryOp) {rest : List Char} (h : rest.head? ≠ some '=') :
    scan (op.spelling.toList ++ rest) = .fixed op.kind :: scan rest := by
  cases op
  · exact scan_symbol (c := '!') rfl (by simp) fun _ => h
  · exact scan_delimiter _ rfl (by decide)

theorem UnaryOp.noTab (op : UnaryOp) : '\t' ∉ op.spelling.toList := by cases op <;> decide

theorem BinaryOp.noTab (op : BinaryOp) : '\t' ∉ op.spelling.toList := by cases op <;> decide

theorem scans_word {text : String} (h : isWord text = true) : Scans text [⟨.ofWord text, text⟩] := by
  unfold isWord at h
  cases htext : text.toList with
  | nil => rw [htext] at h; cases h
  | cons c w =>
    rw [htext] at h
    rw [Bool.and_eq_true] at h
    have hof : String.ofList (c :: w) = text := by rw [← htext, String.ofList_toList]
    refine ⟨fun htab => ?_, fun rest hrest => ?_⟩
    · rcases List.mem_cons.1 (htext ▸ htab) with rfl | htab
      · exact absurd h.1 (by decide)
      · exact absurd (List.all_eq_true.1 h.2 _ htab) (by decide)
    · rw [htext, List.cons_append, scan_word h.1 h.2 hrest, hof]
      rfl

theorem scans_number {text : String} (h : isNumber text = true) : Scans text [⟨.int, text⟩] := by
  unfold isNumber Text.isDigits at h
  cases htext : text.toList with
  | nil => rw [htext] at h; cases h
  | cons c w =>
    rw [htext] at h
    rw [Bool.and_eq_true] at h
    have hof : String.ofList (c :: w) = text := by rw [← htext, String.ofList_toList]
    refine ⟨fun htab => ?_, fun rest hrest => ?_⟩
    · rcases List.mem_cons.1 (htext ▸ htab) with rfl | htab
      · exact absurd h.1 (by decide)
      · exact absurd (List.all_eq_true.1 h.2 _ htab) (by decide)
    · rw [htext, List.cons_append, scan_number h.1 h.2 hrest, hof]
      rfl

theorem Ident.scans {id : Ident} (h : id.wellFormed = true) : Scans id.name [id.lexeme] := by
  simp only [Ident.wellFormed, Bool.and_eq_true, beq_iff_eq] at h
  rw [Ident.lexeme, ← h.2]
  exact scans_word h.1

theorem tab_not_mem_encode (text : List Char) : '\t' ∉ Text.Escape.encode text := by
  simp only [Text.Escape.encode, List.mem_flatMap, not_exists, not_and]
  intro c _ htab
  rcases encodeChar_cases c with ⟨hc, -, -, -, -, hne⟩ | ⟨d, hc, -, hne, -⟩
  · rw [hc, List.mem_singleton] at htab; exact hne htab.symm
  · rw [hc] at htab
    rcases List.mem_cons.1 htab with htab | htab
    · cases htab
    · exact hne (List.mem_singleton.1 htab).symm

theorem scans_quoteString (text : String) : Scans (quoteString text) [⟨.string, text⟩] := by
  refine ⟨by simp [quoteString, tab_not_mem_encode], fun rest _ => ?_⟩
  have h := scan_string text.toList rest
  rw [String.ofList_toList] at h
  simpa [quoteString] using h

/-! ## Lists in renderings -/

section

variable {α : Type} {f : α → String} {g : α → List Lexeme} {separator : String} {kind : Kind}
  (htab : '\t' ∉ separator.toList) (hclear : ∀ rest, Clear (separator.toList ++ rest))
  (hscan : ∀ rest, scan (separator.toList ++ rest) = .fixed kind :: scan rest)
include htab hclear hscan

/-- Texts with a separator between each and the next. -/
theorem scans_intercalate : ∀ as : List α, (∀ a ∈ as, Scans (f a) (g a)) →
    Scans (separator.intercalate (as.map f)) (joined kind (as.map g))
  | [], _ => ⟨by simp, fun rest _ => by simp [joined]⟩
  | [a], h => by simpa [joined] using h a List.mem_cons_self
  | a :: b :: as, h => by
    have ha := h a List.mem_cons_self
    have hrest := scans_intercalate (b :: as) fun c hc => h c (List.mem_cons_of_mem _ hc)
    rw [List.map_cons, List.map_cons, String.intercalate_cons_cons, joined, List.map_cons, List.map_cons,
      List.intercalate_cons_cons]
    refine ⟨?_, fun rest hr => ?_⟩
    · rw [String.toList_append, String.toList_append]
      simp only [List.mem_append, not_or]
      exact ⟨⟨ha.noTab, htab⟩, hrest.noTab⟩
    · rw [String.toList_append, String.toList_append, List.append_assoc, List.append_assoc, ha.scan _ (hclear _),
        hscan]
      have htail := hrest.scan rest hr
      rw [List.map_cons, joined, List.map_cons] at htail
      rw [htail]
      simp

end

theorem scans_commas {α : Type} {f : α → String} {g : α → List Lexeme} {as : List α} (h : ∀ a ∈ as, Scans (f a) (g a)) :
    Scans (", ".intercalate (as.map f)) (joined .comma (as.map g)) :=
  scans_intercalate (by decide) (fun rest => by simp; decide) (fun rest => by simp [scan_space]) as h

theorem scans_semicolons {α : Type} {f : α → String} {g : α → List Lexeme} {as : List α}
    (h : ∀ a ∈ as, Scans (f a) (g a)) : Scans ("; ".intercalate (as.map f)) (joined .semicolon (as.map g)) :=
  scans_intercalate (by decide) (fun rest => by simp; decide) (fun rest => by simp [scan_space]) as h

/-! ## Renderings -/

/-- The operator in front of an operand ends there. -/
theorem Expr.head_render : ∀ {e : Expr}, e.wellFormed = true → e.render.toList.head? ≠ some '='
  | .ident id, h => by
    simp only [Expr.wellFormed, Ident.wellFormed, isWord, Bool.and_eq_true] at h
    rw [Expr.render]
    intro heq
    cases hname : id.name.toList with
    | nil => rw [hname] at heq; cases heq
    | cons c w =>
      rw [hname] at heq h
      cases heq
      exact absurd (Bool.and_eq_true_iff.1 h.1).1 (by decide)
  | .int _ literal _, h => by
    simp only [Expr.wellFormed, isNumber, Text.isDigits, Bool.and_eq_true] at h
    rw [Expr.render]
    intro heq
    cases hliteral : literal.toList with
    | nil => rw [hliteral] at heq; cases heq
    | cons c w =>
      rw [hliteral] at heq h
      cases heq
      exact absurd (Bool.and_eq_true_iff.1 h.1).1 (by decide)
  | .bool _ value, _ => by cases value <;> simp [Expr.render]
  | .str _ text, _ => by simp [Expr.render, quoteString]
  | .array _ _, _ => by simp [Expr.render]
  | .hash _ _, _ => by simp [Expr.render]
  | .unary _ _ _, _ => by simp [Expr.render]
  | .binary _ _ _ _, _ => by simp [Expr.render]
  | .cond _ _ _ none, _ => by simp [Expr.render]
  | .cond _ _ _ (some _), _ => by simp [Expr.render]
  | .fn _ _ _, _ => by simp [Expr.render]
  | .call _ callee _, h => by
    simp only [Expr.wellFormed, Bool.and_eq_true] at h
    have hcallee := Expr.head_render h.1
    intro heq
    simp only [Expr.render, String.toList_append, List.append_assoc, List.head?_append, Option.or_eq_some_iff] at heq
    rcases heq with heq | ⟨-, heq⟩
    · exact hcallee heq
    · simp at heq
  | .index _ _ _, _ => by simp [Expr.render]

mutual

theorem Expr.scans : ∀ {e : Expr}, e.wellFormed = true → Scans e.render e.spell
  | .ident id, h => Ident.scans h
  | .int _ literal _, h => by
    simp only [Expr.wellFormed, Bool.and_eq_true] at h
    exact scans_number h.1
  | .bool _ value, _ => by
    cases value
    · exact ⟨by simp [Expr.render], fun rest hrest => by simp [Expr.render, Expr.spell, hrest]⟩
    · exact ⟨by simp [Expr.render], fun rest hrest => by simp [Expr.render, Expr.spell, hrest]⟩
  | .str _ text, _ => scans_quoteString text
  | .array _ elements, h => by
    have he := scans_commas (Expr.scansAll h)
    rw [← Expr.renderAll_eq, ← Expr.spellAll_eq] at he
    rw [Expr.render, Expr.spell]
    generalize ", ".intercalate (Expr.renderAll elements) = text at he
    exact ⟨by simp [he.noTab], fun rest _ => by simp [he.scan, isWordChar]⟩
  | .hash _ pairs, h => by
    have he := scans_commas (Expr.scansPairs h)
    rw [← Expr.renderPairs_eq, ← Expr.spellPairs_eq] at he
    rw [Expr.render, Expr.spell]
    generalize ", ".intercalate (Expr.renderPairs pairs) = text at he
    exact ⟨by simp [he.noTab], fun rest _ => by simp [he.scan, isWordChar]⟩
  | .unary _ op operand, h => by
    have ho := Expr.scans (e := operand) h
    have hhead := Expr.head_render (e := operand) h
    rw [Expr.render, Expr.spell]
    refine ⟨by simp [ho.noTab, op.noTab], fun rest _ => ?_⟩
    have hop : scan (op.spelling.toList ++ (operand.render.toList ++ ')' :: rest)) =
        .fixed op.kind :: scan (operand.render.toList ++ ')' :: rest) :=
      op.scan_spelling (by cases h : operand.render.toList <;> simp_all)
    simp [hop, ho.scan, isWordChar]
  | .binary _ op left right, h => by
    simp only [Expr.wellFormed, Bool.and_eq_true] at h
    have hl := Expr.scans h.1
    have hr := Expr.scans h.2
    rw [Expr.render, Expr.spell]
    refine ⟨by simp [hl.noTab, hr.noTab, op.noTab], fun rest _ => ?_⟩
    simp [hl.scan, hr.scan, scan_space, op.scan_spelling, isWordChar]
  | .cond _ condition consequence none, h => by
    simp only [Expr.wellFormed, Bool.and_eq_true] at h
    have hc := Expr.scans h.1
    have hb := Block.scans h.2
    rw [Expr.render, Expr.spell]
    exact ⟨by simp [hc.noTab, hb.noTab], fun rest hrest => by simp [hc.scan, hb.scan, hrest, scan_space, isWordChar]⟩
  | .cond _ condition consequence (some alternative), h => by
    simp only [Expr.wellFormed, Bool.and_eq_true] at h
    have hc := Expr.scans h.1.1
    have hb := Block.scans h.1.2
    have ha := Block.scans h.2
    rw [Expr.render, Expr.spell]
    refine ⟨by simp [hc.noTab, hb.noTab, ha.noTab], fun rest hrest => ?_⟩
    simp [hc.scan, hb.scan, ha.scan, hrest, scan_space, isWordChar]
  | .fn _ params body, h => by
    simp only [Expr.wellFormed, Bool.and_eq_true, List.all_eq_true] at h
    have hp := scans_commas (f := Ident.name) (g := fun id => [id.lexeme]) fun id hid => Ident.scans (h.1 id hid)
    have hb := Block.scans h.2
    rw [Expr.render, Expr.spell]
    generalize ", ".intercalate (params.map (·.name)) = text at hp
    exact ⟨by simp [hp.noTab, hb.noTab], fun rest hrest => by simp [hp.scan, hb.scan, hrest, scan_space, isWordChar]⟩
  | .call _ callee args, h => by
    simp only [Expr.wellFormed, Bool.and_eq_true] at h
    have hc := Expr.scans h.1
    have ha := scans_commas (Expr.scansAll h.2)
    rw [← Expr.renderAll_eq, ← Expr.spellAll_eq] at ha
    rw [Expr.render, Expr.spell]
    generalize ", ".intercalate (Expr.renderAll args) = text at ha
    exact ⟨by simp [hc.noTab, ha.noTab], fun rest _ => by simp [hc.scan, ha.scan, isWordChar]⟩
  | .index _ left index, h => by
    simp only [Expr.wellFormed, Bool.and_eq_true] at h
    have hl := Expr.scans h.1
    have hi := Expr.scans h.2
    rw [Expr.render, Expr.spell]
    exact ⟨by simp [hl.noTab, hi.noTab], fun rest _ => by simp [hl.scan, hi.scan, isWordChar]⟩

theorem Expr.scansAll : ∀ {es : List Expr}, Expr.wellFormedAll es = true → ∀ e ∈ es, Scans e.render e.spell
  | [], _ => by simp
  | e :: es, h => by
    simp only [Expr.wellFormedAll, Bool.and_eq_true] at h
    exact List.forall_mem_cons.2 ⟨Expr.scans h.1, Expr.scansAll h.2⟩

theorem Expr.scansPairs : ∀ {pairs : List (Expr × Expr)}, Expr.wellFormedPairs pairs = true →
    ∀ pair ∈ pairs, Scans (Expr.renderPair pair) (Expr.spellPair pair)
  | [], _ => by simp
  | (key, value) :: pairs, h => by
    simp only [Expr.wellFormedPairs, Bool.and_eq_true] at h
    have hk := Expr.scans h.1.1
    have hv := Expr.scans h.1.2
    refine List.forall_mem_cons.2 ⟨?_, Expr.scansPairs h.2⟩
    rw [Expr.renderPair, Expr.spellPair]
    refine ⟨by simp [hk.noTab, hv.noTab], fun rest hrest => ?_⟩
    simp [hk.scan, hv.scan, hrest, scan_space, isWordChar]

theorem Stmt.scans : ∀ {s : Stmt}, s.wellFormed = true → Scans s.render s.spell
  | .expr _ value, h => Expr.scans (e := value) h
  | .bind _ name value, h => by
    simp only [Stmt.wellFormed, Bool.and_eq_true] at h
    have hn := Ident.scans h.1
    have hv := Expr.scans h.2
    rw [Stmt.render, Stmt.spell]
    refine ⟨by simp [hn.noTab, hv.noTab], fun rest hrest => ?_⟩
    have heq : ∀ text, scan ('=' :: ' ' :: text) = .fixed .assign :: scan (' ' :: text) := fun text =>
      scan_symbol rfl (by simp) (by simp)
    simp [hn.scan, hv.scan, hrest, heq, scan_space, isWordChar]
  | .ret _ none, _ => ⟨by simp [Stmt.render], fun rest hrest => by simp [Stmt.render, Stmt.spell, hrest]⟩
  | .ret _ (some value), h => by
    have hv := Expr.scans (e := value) h
    rw [Stmt.render, Stmt.spell]
    exact ⟨by simp [hv.noTab], fun rest hrest => by simp [hv.scan, hrest, scan_space, isWordChar]⟩

theorem Stmt.scansAll : ∀ {statements : List Stmt}, Stmt.wellFormedAll statements = true →
    ∀ s ∈ statements, Scans s.render s.spell
  | [], _ => by simp
  | s :: statements, h => by
    simp only [Stmt.wellFormedAll, Bool.and_eq_true] at h
    exact List.forall_mem_cons.2 ⟨Stmt.scans h.1, Stmt.scansAll h.2⟩

theorem Block.scans : ∀ {b : Block}, b.wellFormed = true → Scans b.render b.spell
  | .mk _ [], _ => by
    rw [Block.render, Block.spell, Stmt.spellAll]
    exact ⟨by simp, fun rest _ => by simp [joined, scan_space]⟩
  | .mk _ (s :: statements), h => by
    have hs := scans_semicolons (Stmt.scansAll (show Stmt.wellFormedAll (s :: statements) = true from h))
    rw [← Stmt.renderAll_eq, ← Stmt.spellAll_eq] at hs
    rw [Block.render, Block.spell]
    · generalize "; ".intercalate (Stmt.renderAll (s :: statements)) = text at hs
      exact ⟨by simp [hs.noTab], fun rest _ => by simp [hs.scan, scan_space, isWordChar]⟩
    · simp

end

/-- **The scanner finds in a rendering just the lexemes that spell the tree.** -/
theorem Program.scans {p : Program} (h : p.wellFormed = true) : Scans p.render p.spell := by
  have hs := scans_semicolons (Stmt.scansAll h)
  rw [← Stmt.renderAll_eq, ← Stmt.spellAll_eq] at hs
  exact hs

end Monkey
