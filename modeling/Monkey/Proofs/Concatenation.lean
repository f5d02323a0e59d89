import Monkey.Proofs.Displacement
import Monkey.Proofs.Lines
import Monkey.Proofs.Locality
import Monkey.Proofs.Roundtrip
/-!
# Sources one behind the other

A source without diagnostics closes every brace that it opens.  If it also ends on a semicolon, a source on the next
line is parsed as if it stood alone, further down (`parse_append_line`).
-/
namespace Monkey

/-! ## Derivations are balanced -/

/-- Tokens that close every brace which they open, and no other. -/
def Balanced (ts : List Token) : Prop := Nested ts ∧ braces ts = 0

theorem balanced_nil : Balanced [] := ⟨nested_nil, rfl⟩

theorem balanced_singleton {t : Token} (ht : t.kind.braces = 0) : Balanced [t] :=
  ⟨nested_nil.concat (by rw [ht]; decide), (braces_singleton t).trans ht⟩

theorem Balanced.append {ts us : List Token} (ht : Balanced ts) (hu : Balanced us) : Balanced (ts ++ us) :=
  ⟨ht.1.append hu.1, by rw [braces_append, ht.2, hu.2]; rfl⟩

theorem Balanced.cons {t : Token} {ts : List Token} (ht : t.kind.braces = 0) (h : Balanced ts) : Balanced (t :: ts) :=
  (balanced_singleton ht).append h

/-- Between braces. -/
theorem Balanced.enclosed {l r : Token} {ts : List Token} (hl : l.kind = .lbrace) (h : Balanced ts)
    (hr : r.kind = .rbrace) : Balanced (l :: ts ++ [r]) := by
  have hopen : Nested [l] := nested_nil.concat (by rw [hl]; decide)
  have hbraces : braces (l :: ts) = 1 := by
    show braces ([l] ++ ts) = 1
    rw [braces_append, braces_singleton, hl, h.2]
    rfl
  refine ⟨(hopen.append h.1).concat ?_, ?_⟩
  · show 0 ≤ braces (l :: ts) + r.kind.braces
    rw [hbraces, hr]
    decide
  · rw [braces_append, hbraces, braces_singleton, hr]
    rfl

theorem Separated.balanced {α : Type} {R : α → List Token → Prop} {as : List α} {ts : List Token}
    (h : Separated R as ts) (hR : ∀ a ts, R a ts → Balanced ts) : Balanced ts := by
  induction h with
  | nil => exact balanced_nil
  | one h => exact hR _ _ h
  | cons h hc _ ih => exact (hR _ _ h).append (ih.cons (by rw [hc]; rfl))

theorem UnaryOp.braces_kind (op : UnaryOp) : op.kind.braces = 0 := by cases op <;> rfl

theorem BinaryOp.braces_kind (op : BinaryOp) : op.kind.braces = 0 := by cases op <;> rfl

theorem balanced_of_kind {t : Token} {kind : Kind} (ht : t.kind = kind) (h : kind.braces = 0) : Balanced [t] :=
  balanced_singleton (by rw [ht, h])

mutual

theorem Expr.Yields.balanced : ∀ {e : Expr} {ts : List Token}, e.Yields ts → Balanced ts
  | _, _, .ident ht => balanced_of_kind ht rfl
  | _, _, .int ht _ => balanced_of_kind ht rfl
  | _, _, .str ht => balanced_of_kind ht rfl
  | _, _, .bool ht => balanced_of_kind ht (by split <;> rfl)
  | _, _, .grouped hl h hr => (h.balanced.cons (by rw [hl]; rfl)).append (balanced_of_kind hr rfl)
  | _, _, .unary ht h => h.balanced.cons (by rw [ht]; exact UnaryOp.braces_kind _)
  | _, _, .binary he ht hf => he.balanced.append (hf.balanced.cons (by rw [ht]; exact BinaryOp.braces_kind _))
  | _, _, .index he hl hi hr =>
    (he.balanced.append (hi.balanced.cons (by rw [hl]; rfl))).append (balanced_of_kind hr rfl)
  | _, _, .call he hl hargs hr =>
    (he.balanced.append ((Expr.balanced_of_separated hargs).cons (by rw [hl]; rfl))).append (balanced_of_kind hr rfl)
  | _, _, .array hl h hr => ((Expr.balanced_of_separated h).cons (by rw [hl]; rfl)).append (balanced_of_kind hr rfl)
  | _, _, .hash hl h hr => (Expr.balanced_of_pairs h).enclosed hl hr
  | _, _, .hashComma hl h _ hc hr => by
    have hinner := (Expr.balanced_of_pairs h).append (balanced_of_kind hc rfl)
    simpa using hinner.enclosed hl hr
  | _, _, .cond ht hl hc hr hb =>
    ((hc.balanced.cons (by rw [hl]; rfl)).cons (by rw [ht]; rfl)).append (hb.balanced.cons (by rw [hr]; rfl))
  | _, _, .condElse ht hl hc hr hb he ha =>
    (((hc.balanced.cons (by rw [hl]; rfl)).cons (by rw [ht]; rfl)).append (hb.balanced.cons (by rw [hr]; rfl))).append
      (ha.balanced.cons (by rw [he]; rfl))
  | _, _, .fn ht hl hparams hr hb => by
    have hp := hparams.balanced fun _ _ h => by
      cases h with
      | mk ht => exact balanced_of_kind ht rfl
    exact ((hp.cons (by rw [hl]; rfl)).cons (by rw [ht]; rfl)).append (hb.balanced.cons (by rw [hr]; rfl))

theorem Expr.balanced_of_separated : ∀ {es : List Expr} {ts : List Token}, Separated Expr.Yields es ts → Balanced ts
  | _, _, .nil => balanced_nil
  | _, _, .one h => h.balanced
  | _, _, .cons h hc hrest => h.balanced.append ((Expr.balanced_of_separated hrest).cons (by rw [hc]; rfl))

theorem Expr.balanced_of_pairs : ∀ {pairs : List (Expr × Expr)} {ts : List Token},
    Separated Expr.YieldsPair pairs ts → Balanced ts
  | _, _, .nil => balanced_nil
  | _, _, .one h => h.balanced
  | _, _, .cons h hc hrest => h.balanced.append ((Expr.balanced_of_pairs hrest).cons (by rw [hc]; rfl))

theorem Expr.YieldsPair.balanced : ∀ {pair : Expr × Expr} {ts : List Token}, Expr.YieldsPair pair ts → Balanced ts
  | _, _, .mk he hc hf => he.balanced.append (hf.balanced.cons (by rw [hc]; rfl))

theorem Stmt.Yields.balanced : ∀ {s : Stmt} {ts : List Token}, s.Yields ts → Balanced ts
  | _, _, .expr h => h.balanced
  | _, _, .bind ht hn ha h =>
    ((h.balanced.cons (by rw [ha]; rfl)).cons (by rw [hn]; rfl)).cons (by rw [ht]; rfl)
  | _, _, .ret ht => balanced_of_kind ht rfl
  | _, _, .retValue ht h => h.balanced.cons (by rw [ht]; rfl)

theorem Stmt.YieldsEnded.balanced : ∀ {s : Stmt} {ts : List Token}, s.YieldsEnded ts → Balanced ts
  | _, _, .bare h => h.balanced
  | _, _, .semicolon h ht => h.balanced.append (balanced_of_kind ht rfl)

theorem Stmt.balanced_of_sequence : ∀ {statements : List Stmt} {ts : List Token},
    Sequence Stmt.YieldsEnded statements ts → Balanced ts
  | _, _, .nil => balanced_nil
  | _, _, .cons h hrest => h.balanced.append (Stmt.balanced_of_sequence hrest)

theorem Block.Yields.balanced : ∀ {b : Block} {ts : List Token}, b.Yields ts → Balanced ts
  | _, _, .mk hl h hr => (Stmt.balanced_of_sequence h).enclosed hl hr

end

/-! ## The next line -/

/-- A source without diagnostics closes every brace that it opens, and no other. -/
theorem Parsed.balanced_of_no_diagnostics {source : String} (h : (parse source).diagnostics = []) :
    Balanced (TokenStream.ofSource source).ahead := by
  obtain ⟨ts, q, hahead, hend, hyields⟩ := derivation_of_no_diagnostics h
  have hnil : q.ahead = [] := Parser.ahead_eq_nil_of_cur (fun t ht => TokenStream.kind_ofSource_ne_eof t
    (by rw [hahead]; exact List.mem_append_right _ ht)) hend
  rw [hahead, hnil, List.append_nil]
  exact Stmt.balanced_of_sequence hyields

theorem Parsed.errors_eq_nil {r : Parsed} (h : r.diagnostics = []) : r.errors = [] := by rw [errors, h, List.map_nil]

/-- The places of a source that stands behind another one and a line feed. -/
def below (source : String) : Pos → Pos := Pos.down (source.toList.count '\n' + 1)

/-- **Line by line**: behind a source without diagnostics that ends on a semicolon, and not on a backslash, another one
on the next line is parsed as it is alone, further down. -/
theorem parse_append_line {s₁ s₂ : String} (h : (parse s₁).diagnostics = []) (hclosed : Closed s₁.toList)
    (hlast : (TokenStream.ofSource s₁).ahead.getLast?.map (·.kind) = some .semicolon) :
    (parse (s₁ ++ "\n" ++ s₂)).program.statements =
        (parse s₁).program.statements ++ (parse s₂).program.statements.map (Stmt.relocate (below s₁)) ∧
      (parse (s₁ ++ "\n" ++ s₂)).diagnostics = (parse s₂).diagnostics := by
  have hbalanced := Parsed.balanced_of_no_diagnostics h
  have hsealed : (Parser.ofStream (.ofSource s₁)).Sealed :=
    Parser.sealed_ofStream hbalanced.1 hbalanced.2 TokenStream.kind_ofSource_ne_eof hlast
  have hsource : parse (s₁ ++ "\n" ++ s₂) = .ofStream ⟨(TokenStream.ofSource s₁).ahead ++
      (TokenStream.ofSource s₂).ahead.map (Token.relocate (below s₁)), below s₁ (TokenStream.ofSource s₂).endPos⟩ :=
    congrArg Parsed.ofStream (TokenStream.ofSource_append_line hclosed s₂)
  obtain ⟨hprogram, hdiagnostics⟩ := Parsed.ofStream_relocate (below s₁) (.ofSource s₂)
  constructor
  · rw [hsource]
    refine (Parsed.ofStream_of_sealed hsealed).1.trans (congrArg ((parse s₁).program.statements ++ ·) ?_)
    exact (congrArg Program.statements hprogram).trans (Program.relocate_statements _ _)
  · rw [hsource]
    refine (Parsed.ofStream_of_sealed hsealed).2.trans ?_
    show (parse s₁).diagnostics ++ _ = _
    rw [h]
    exact hdiagnostics

end Monkey
