import Monkey.Parser.Parsed
/-!
# What a tree yields

The grammar of the language as a relation between trees and token lists, without a parser: a tree yields the tokens of
its parts in order, with the delimiters of its node.  Any expression may stand in parentheses, one semicolon may stand
behind a statement and one comma behind the last pair of a hash literal; nothing else is left open.
-/
namespace Monkey

section

variable {α : Type} (R : α → List Token → Prop)

/-- Items, a comma between each and the next. -/
inductive Separated : List α → List Token → Prop
  | nil : Separated [] []
  | one {a : α} {ts : List Token} (h : R a ts) : Separated [a] ts
  | cons {a b : α} {as : List α} {ts us : List Token} {c : Token} (h : R a ts) (hc : c.kind = .comma)
      (hrest : Separated (b :: as) us) : Separated (a :: b :: as) (ts ++ c :: us)

/-- One item behind the other. -/
inductive Sequence : List α → List Token → Prop
  | nil : Sequence [] []
  | cons {a : α} {as : List α} {ts us : List Token} (h : R a ts) (hrest : Sequence as us) :
      Sequence (a :: as) (ts ++ us)

end

/-- A name yields the one token that spells it. -/
inductive Ident.Yields : Ident → List Token → Prop
  | mk {t : Token} (ht : t.kind = .ident) : Ident.Yields ⟨t.pos, t.literal⟩ [t]

mutual

/-- The tokens that an expression yields. -/
inductive Expr.Yields : Expr → List Token → Prop
  | ident {t : Token} (ht : t.kind = .ident) : Expr.Yields (.ident ⟨t.pos, t.literal⟩) [t]
  | int {t : Token} {value : Nat} (ht : t.kind = .int) (hv : Parse.integer? t.literal = some value) :
      Expr.Yields (.int t.pos t.literal value) [t]
  | str {t : Token} (ht : t.kind = .string) : Expr.Yields (.str t.pos t.literal) [t]
  | bool {t : Token} {value : Bool} (ht : t.kind = if value then .trueWord else .falseWord) :
      Expr.Yields (.bool t.pos value) [t]
  | grouped {l r : Token} {e : Expr} {ts : List Token} (hl : l.kind = .lparen) (h : Expr.Yields e ts)
      (hr : r.kind = .rparen) : Expr.Yields e (l :: ts ++ [r])
  | unary {t : Token} {op : UnaryOp} {e : Expr} {ts : List Token} (ht : t.kind = op.kind) (h : Expr.Yields e ts) :
      Expr.Yields (.unary t.pos op e) (t :: ts)
  | binary {t : Token} {op : BinaryOp} {e f : Expr} {ts us : List Token} (he : Expr.Yields e ts) (ht : t.kind = op.kind)
      (hf : Expr.Yields f us) : Expr.Yields (.binary t.pos op e f) (ts ++ t :: us)
  | index {l r : Token} {e i : Expr} {ts us : List Token} (he : Expr.Yields e ts) (hl : l.kind = .lbracket)
      (hi : Expr.Yields i us) (hr : r.kind = .rbracket) : Expr.Yields (.index l.pos e i) (ts ++ l :: us ++ [r])
  | call {l r : Token} {e : Expr} {args : List Expr} {ts us : List Token} (he : Expr.Yields e ts)
      (hl : l.kind = .lparen) (hargs : Separated Expr.Yields args us) (hr : r.kind = .rparen) :
      Expr.Yields (.call l.pos e args) (ts ++ l :: us ++ [r])
  | array {l r : Token} {elements : List Expr} {ts : List Token} (hl : l.kind = .lbracket)
      (h : Separated Expr.Yields elements ts) (hr : r.kind = .rbracket) :
      Expr.Yields (.array l.pos elements) (l :: ts ++ [r])
  | hash {l r : Token} {pairs : List (Expr × Expr)} {ts : List Token} (hl : l.kind = .lbrace)
      (h : Separated Expr.YieldsPair pairs ts) (hr : r.kind = .rbrace) :
      Expr.Yields (.hash l.pos pairs) (l :: ts ++ [r])
  | hashComma {l c r : Token} {pairs : List (Expr × Expr)} {ts : List Token} (hl : l.kind = .lbrace)
      (h : Separated Expr.YieldsPair pairs ts) (hne : pairs ≠ []) (hc : c.kind = .comma) (hr : r.kind = .rbrace) :
      Expr.Yields (.hash l.pos pairs) (l :: ts ++ [c, r])
  | cond {t l r : Token} {c : Expr} {b : Block} {ts us : List Token} (ht : t.kind = .ifWord) (hl : l.kind = .lparen)
      (hc : Expr.Yields c ts) (hr : r.kind = .rparen) (hb : Block.Yields b us) :
      Expr.Yields (.cond t.pos c b none) (t :: l :: ts ++ r :: us)
  | condElse {t l r e : Token} {c : Expr} {b a : Block} {ts us vs : List Token} (ht : t.kind = .ifWord)
      (hl : l.kind = .lparen) (hc : Expr.Yields c ts) (hr : r.kind = .rparen) (hb : Block.Yields b us)
      (he : e.kind = .elseWord) (ha : Block.Yields a vs) :
      Expr.Yields (.cond t.pos c b (some a)) (t :: l :: ts ++ r :: us ++ e :: vs)
  | fn {t l r : Token} {params : List Ident} {b : Block} {ts us : List Token} (ht : t.kind = .fnWord)
      (hl : l.kind = .lparen) (hparams : Separated Ident.Yields params ts) (hr : r.kind = .rparen)
      (hb : Block.Yields b us) : Expr.Yields (.fn t.pos params b) (t :: l :: ts ++ r :: us)

/-- The tokens that a pair of a hash literal yields. -/
inductive Expr.YieldsPair : Expr × Expr → List Token → Prop
  | mk {c : Token} {e f : Expr} {ts us : List Token} (he : Expr.Yields e ts) (hc : c.kind = .colon)
      (hf : Expr.Yields f us) : Expr.YieldsPair (e, f) (ts ++ c :: us)

/-- The tokens that a statement yields, without a semicolon behind it.  An expression statement keeps the first. -/
inductive Stmt.Yields : Stmt → List Token → Prop
  | expr {t : Token} {e : Expr} {ts : List Token} (h : Expr.Yields e (t :: ts)) : Stmt.Yields (.expr t e) (t :: ts)
  | bind {t n a : Token} {e : Expr} {ts : List Token} (ht : t.kind = .letWord) (hn : n.kind = .ident)
      (ha : a.kind = .assign) (h : Expr.Yields e ts) :
      Stmt.Yields (.bind t.pos ⟨n.pos, n.literal⟩ e) (t :: n :: a :: ts)
  | ret {t : Token} (ht : t.kind = .returnWord) : Stmt.Yields (.ret t.pos none) [t]
  | retValue {t : Token} {e : Expr} {ts : List Token} (ht : t.kind = .returnWord) (h : Expr.Yields e ts) :
      Stmt.Yields (.ret t.pos (some e)) (t :: ts)

/-- The tokens that a statement yields, with or without a semicolon behind it. -/
inductive Stmt.YieldsEnded : Stmt → List Token → Prop
  | bare {s : Stmt} {ts : List Token} (h : Stmt.Yields s ts) : Stmt.YieldsEnded s ts
  | semicolon {s : Stmt} {ts : List Token} {t : Token} (h : Stmt.Yields s ts) (ht : t.kind = .semicolon) :
      Stmt.YieldsEnded s (ts ++ [t])

/-- The tokens that a block yields. -/
inductive Block.Yields : Block → List Token → Prop
  | mk {l r : Token} {statements : List Stmt} {ts : List Token} (hl : l.kind = .lbrace)
      (h : Sequence Stmt.YieldsEnded statements ts) (hr : r.kind = .rbrace) :
      Block.Yields (.mk l.pos statements) (l :: ts ++ [r])

end

/-- The tokens that a program yields. -/
def Program.Yields (p : Program) (ts : List Token) : Prop := Sequence Stmt.YieldsEnded p.statements ts

/-! ## No tree yields the end -/

theorem UnaryOp.kind_ne_eof (op : UnaryOp) : op.kind ≠ .eof := by cases op <;> decide

theorem BinaryOp.kind_ne_eof (op : BinaryOp) : op.kind ≠ .eof := by cases op <;> decide

theorem Separated.noEnd {α : Type} {R : α → List Token → Prop} {as : List α} {ts : List Token} (h : Separated R as ts)
    (hR : ∀ a ts, R a ts → ∀ t ∈ ts, t.kind ≠ .eof) : ∀ t ∈ ts, t.kind ≠ .eof := by
  induction h with
  | nil => simp
  | one h => exact hR _ _ h
  | cons h hc _ ih => simpa [or_imp, forall_and, hc] using ⟨hR _ _ h, ih⟩

mutual

theorem Expr.Yields.noEnd : ∀ {e : Expr} {ts : List Token}, e.Yields ts → ∀ t ∈ ts, t.kind ≠ .eof
  | _, _, .ident ht => by simp [ht]
  | _, _, .int ht _ => by simp [ht]
  | _, _, .str ht => by simp [ht]
  | _, _, .bool ht => by simp [ht]; split <;> decide
  | _, _, .grouped hl h hr => by simpa [or_imp, forall_and, hl, hr] using h.noEnd
  | _, _, .unary ht h => by simpa [or_imp, forall_and, ht, UnaryOp.kind_ne_eof] using h.noEnd
  | _, _, .binary he ht hf => by
    simpa [or_imp, forall_and, ht, BinaryOp.kind_ne_eof] using ⟨he.noEnd, hf.noEnd⟩
  | _, _, .index he hl hi hr => by simpa [or_imp, forall_and, hl, hr] using ⟨he.noEnd, hi.noEnd⟩
  | _, _, .call he hl hargs hr => by
    simpa [or_imp, forall_and, hl, hr] using ⟨he.noEnd, Expr.noEnd_of_separated hargs⟩
  | _, _, .array hl h hr => by simpa [or_imp, forall_and, hl, hr] using Expr.noEnd_of_separated h
  | _, _, .hash hl h hr => by simpa [or_imp, forall_and, hl, hr] using Expr.noEnd_of_pairs h
  | _, _, .hashComma hl h _ hc hr => by simpa [or_imp, forall_and, hl, hc, hr] using Expr.noEnd_of_pairs h
  | _, _, .cond ht hl hc hr hb => by simpa [or_imp, forall_and, ht, hl, hr] using ⟨hc.noEnd, hb.noEnd⟩
  | _, _, .condElse ht hl hc hr hb he ha => by
    simpa [or_imp, forall_and, ht, hl, hr, he] using ⟨hc.noEnd, hb.noEnd, ha.noEnd⟩
  | _, _, .fn ht hl hparams hr hb => by
    have hp := hparams.noEnd fun _ _ h => by cases h with | mk ht => simp [ht]
    simpa [or_imp, forall_and, ht, hl, hr] using ⟨hp, hb.noEnd⟩

theorem Expr.noEnd_of_separated : ∀ {es : List Expr} {ts : List Token}, Separated Expr.Yields es ts →
    ∀ t ∈ ts, t.kind ≠ .eof
  | _, _, .nil => by simp
  | _, _, .one h => h.noEnd
  | _, _, .cons h hc hrest => by
    simpa [or_imp, forall_and, hc] using ⟨h.noEnd, Expr.noEnd_of_separated hrest⟩

theorem Expr.noEnd_of_pairs : ∀ {pairs : List (Expr × Expr)} {ts : List Token}, Separated Expr.YieldsPair pairs ts →
    ∀ t ∈ ts, t.kind ≠ .eof
  | _, _, .nil => by simp
  | _, _, .one h => h.noEnd
  | _, _, .cons h hc hrest => by simpa [or_imp, forall_and, hc] using ⟨h.noEnd, Expr.noEnd_of_pairs hrest⟩

theorem Expr.YieldsPair.noEnd : ∀ {pair : Expr × Expr} {ts : List Token}, Expr.YieldsPair pair ts →
    ∀ t ∈ ts, t.kind ≠ .eof
  | _, _, .mk he hc hf => by simpa [or_imp, forall_and, hc] using ⟨he.noEnd, hf.noEnd⟩

theorem Stmt.Yields.noEnd : ∀ {s : Stmt} {ts : List Token}, s.Yields ts → ∀ t ∈ ts, t.kind ≠ .eof
  | _, _, .expr h => h.noEnd
  | _, _, .bind ht hn ha h => by simpa [or_imp, forall_and, ht, hn, ha] using h.noEnd
  | _, _, .ret ht => by simp [ht]
  | _, _, .retValue ht h => by simpa [or_imp, forall_and, ht] using h.noEnd

theorem Stmt.YieldsEnded.noEnd : ∀ {s : Stmt} {ts : List Token}, s.YieldsEnded ts → ∀ t ∈ ts, t.kind ≠ .eof
  | _, _, .bare h => h.noEnd
  | _, _, .semicolon h ht => by simpa [or_imp, forall_and, ht] using h.noEnd

theorem Stmt.noEnd_of_sequence : ∀ {statements : List Stmt} {ts : List Token},
    Sequence Stmt.YieldsEnded statements ts → ∀ t ∈ ts, t.kind ≠ .eof
  | _, _, .nil => by simp
  | _, _, .cons h hrest => by simpa [or_imp, forall_and] using ⟨h.noEnd, Stmt.noEnd_of_sequence hrest⟩

theorem Block.Yields.noEnd : ∀ {b : Block} {ts : List Token}, b.Yields ts → ∀ t ∈ ts, t.kind ≠ .eof
  | _, _, .mk hl h hr => by simpa [or_imp, forall_and, hl, hr] using Stmt.noEnd_of_sequence h

end

end Monkey
