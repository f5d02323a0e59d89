import Monkey.Proofs.Reparse
/-!
# Round trips

Parsing the rendering of a well-formed program gives the program back, places apart; and the program of a source without
diagnostics is well-formed, unless a reserved word is read as a name in it.  So rendering, parsing and rendering again
changes nothing (`parse_render`).
-/
namespace Monkey

open Piece (isWordStart isWordChar)

/-! ## Rendering does not look at places -/

mutual

theorem Expr.render_erase : ∀ e : Expr, e.erase.render = e.render
  | .ident _ => rfl
  | .int _ _ _ => rfl
  | .bool _ _ => rfl
  | .str _ _ => rfl
  | .array _ elements => by rw [Expr.erase, Expr.render, Expr.render, Expr.renderAll_erase elements]
  | .hash _ pairs => by rw [Expr.erase, Expr.render, Expr.render, Expr.renderPairs_erase pairs]
  | .unary _ op operand => by rw [Expr.erase, Expr.render, Expr.render, operand.render_erase]
  | .binary _ op left right => by
    rw [Expr.erase, Expr.render, Expr.render, left.render_erase, right.render_erase]
  | .cond _ condition consequence none => by
    rw [Expr.erase, Expr.render, Expr.render, condition.render_erase, consequence.render_erase]
  | .cond _ condition consequence (some alternative) => by
    rw [Expr.erase, Expr.render, Expr.render, condition.render_erase, consequence.render_erase,
      alternative.render_erase]
  | .fn _ params body => by
    rw [Expr.erase, Expr.render, Expr.render, body.render_erase, List.map_map]
    rfl
  | .call _ callee args => by
    rw [Expr.erase, Expr.render, Expr.render, callee.render_erase, Expr.renderAll_erase args]
  | .index _ left index => by
    rw [Expr.erase, Expr.render, Expr.render, left.render_erase, index.render_erase]

theorem Expr.renderAll_erase : ∀ es : List Expr, Expr.renderAll (Expr.eraseAll es) = Expr.renderAll es
  | [] => rfl
  | e :: es => by rw [Expr.eraseAll, Expr.renderAll, Expr.renderAll, e.render_erase, Expr.renderAll_erase es]

theorem Expr.renderPairs_erase : ∀ pairs : List (Expr × Expr),
    Expr.renderPairs (Expr.erasePairs pairs) = Expr.renderPairs pairs
  | [] => rfl
  | (key, value) :: pairs => by
    rw [Expr.erasePairs, Expr.renderPairs, Expr.renderPairs, key.render_erase, value.render_erase,
      Expr.renderPairs_erase pairs]

theorem Stmt.render_erase : ∀ s : Stmt, s.erase.render = s.render
  | .expr _ value => by rw [Stmt.erase, Stmt.render, Stmt.render, value.render_erase]
  | .bind _ name value => by rw [Stmt.erase, Stmt.render, Stmt.render, value.render_erase]; rfl
  | .ret _ none => rfl
  | .ret _ (some value) => by rw [Stmt.erase, Stmt.render, Stmt.render, value.render_erase]

theorem Stmt.renderAll_erase : ∀ statements : List Stmt,
    Stmt.renderAll (Stmt.eraseAll statements) = Stmt.renderAll statements
  | [] => rfl
  | s :: statements => by
    rw [Stmt.eraseAll, Stmt.renderAll, Stmt.renderAll, s.render_erase, Stmt.renderAll_erase statements]

theorem Block.render_erase : ∀ b : Block, b.erase.render = b.render
  | .mk _ [] => rfl
  | .mk _ (s :: statements) => by
    have h := Stmt.renderAll_erase (s :: statements)
    rw [Stmt.eraseAll] at h
    rw [Block.erase, Stmt.eraseAll, Block.render, Block.render, h] <;> simp

end

theorem Program.render_of_erase {p q : Program} (h : p.erase = q.erase) : p.render = q.render := by
  unfold Program.erase at h
  rw [Program.render, Program.render, ← Stmt.renderAll_erase p.statements, h, Stmt.renderAll_erase]

/-! ## What the scanner yields -/

/-- A name is spelled like a word, and a number like a number. -/
def Token.wellSpelled (t : Token) : Bool :=
  match t.kind with
  | .ident => isWord t.literal
  | .int => isNumber t.literal
  | _ => true

theorem mem_piecesFrom : ∀ (text : List Char) (before : Option Char) (skip : Nat),
    ∀ piece ∈ piecesFrom before skip text, ∃ before c rest, piece = Piece.first before c rest
  | [], _, skip, piece, h => by cases skip <;> cases h
  | c :: rest, before, 0, piece, h => by
    rcases List.mem_cons.1 h with rfl | h
    · exact ⟨before, c, rest, rfl⟩
    · exact mem_piecesFrom rest _ _ piece h
  | c :: rest, before, skip + 1, piece, h => mem_piecesFrom rest (some c) skip piece h

theorem mem_tokensFrom : ∀ (ps : List Piece) (pos : Pos), ∀ t ∈ Piece.tokensFrom pos ps,
    ∃ text, Piece.lexeme t.kind text t.literal ∈ ps
  | [], _, t, h => by cases h
  | .lexeme kind text literal :: ps, pos, t, h => by
    rcases List.mem_cons.1 h with rfl | h
    · exact ⟨text, List.mem_cons_self⟩
    · obtain ⟨text', hmem⟩ := mem_tokensFrom ps _ t h
      exact ⟨text', List.mem_cons_of_mem _ hmem⟩
  | .blank c :: ps, pos, t, h => by
    rw [Piece.tokensFrom] at h
    · obtain ⟨text, hmem⟩ := mem_tokensFrom ps _ t h
      exact ⟨text, List.mem_cons_of_mem _ hmem⟩
    · simp
  | .comment text :: ps, pos, t, h => by
    rw [Piece.tokensFrom] at h
    · obtain ⟨text', hmem⟩ := mem_tokensFrom ps _ t h
      exact ⟨text', List.mem_cons_of_mem _ hmem⟩
    · simp

theorem ofWord_cases (word : String) : Kind.ofWord word = .ident ∨ Kind.ofWord word ∈ keywords.map (·.2) := by
  unfold Kind.ofWord
  cases h : keywords.lookup word with
  | none => exact .inl rfl
  | some kind =>
    obtain ⟨l₁, l₂, heq, -⟩ := List.lookup_eq_some_iff.1 h
    exact .inr (List.mem_map.2 ⟨(word, kind), by rw [heq]; simp, rfl⟩)

theorem ofWord_ne (word : String) : Kind.ofWord word ≠ .int ∧ Kind.ofWord word ≠ .eof := by
  rcases ofWord_cases word with h | h
  · rw [h]; decide
  · generalize Kind.ofWord word = kind at h
    revert kind
    decide

theorem ofChar_ne {c : Char} : (Kind.ofChar? c).getD .illegal ≠ .ident ∧ (Kind.ofChar? c).getD .illegal ≠ .int ∧
    (Kind.ofChar? c).getD .illegal ≠ .eof := by
  unfold Kind.ofChar?
  split <;> decide

theorem wellSpelled_of_kind {t : Token} (h : t.kind ≠ .ident ∧ t.kind ≠ .int) : t.wellSpelled = true := by
  unfold Token.wellSpelled
  split
  · exact absurd ‹_› h.1
  · exact absurd ‹_› h.2
  · rfl

theorem wellSpelled_first {before : Option Char} {c : Char} {rest text : List Char} {t : Token}
    (h : Piece.first before c rest = .lexeme t.kind text t.literal) : t.wellSpelled = true := by
  have htake : ∀ p : Char → Bool, (rest.takeWhile p).all p = true := fun p => List.all_takeWhile
  unfold Piece.first at h
  split at h
  · cases h
  split at h
  · cases h
  split at h
  · rename_i hstart
    injection h with hkind _ hliteral
    have hword : isWord t.literal = true := by
      rw [← hliteral, isWord, String.toList_ofList]
      simp only [hstart, htake, Bool.and_self]
    have hint : t.kind ≠ .int := by
      rw [← hkind]
      split
      · decide
      · exact (ofWord_ne _).1
    unfold Token.wellSpelled
    split
    · exact hword
    · exact absurd ‹_› hint
    · rfl
  split at h
  · rename_i hdigit
    injection h with hkind _ hliteral
    have hnumber : isNumber t.literal = true := by
      rw [← hliteral, isNumber, String.toList_ofList, Text.isDigits]
      simp only [hdigit, htake, Bool.and_self]
    unfold Token.wellSpelled
    rw [← hkind]
    exact hnumber
  refine wellSpelled_of_kind ?_
  split at h
  · split at h
    · injection h with hkind _ _
      rw [← hkind]; decide
    · injection h with hkind _ _
      rw [← hkind]; decide
  · unfold Piece.ofSymbol at h
    split at h
    · injection h with hkind _ _
      rw [← hkind]; decide
    · injection h with hkind _ _
      rw [← hkind]; decide
    · injection h with hkind _ _
      rw [← hkind]; exact ⟨ofChar_ne.1, ofChar_ne.2.1⟩

/-- **Every name of a source is spelled like a word, and every number like a number.** -/
theorem TokenStream.wellSpelled_ofSource {source : String} : ∀ t ∈ (TokenStream.ofSource source).ahead,
    t.wellSpelled = true := by
  intro t ht
  obtain ⟨text, hmem⟩ := mem_tokensFrom _ _ t ht
  obtain ⟨before, c, rest, hfirst⟩ := mem_piecesFrom _ _ _ _ hmem
  exact wellSpelled_first hfirst.symm

theorem kind_first_ne_eof {before : Option Char} {c : Char} {rest text : List Char} {kind : Kind} {literal : String}
    (h : Piece.first before c rest = .lexeme kind text literal) : kind ≠ .eof := by
  unfold Piece.first at h
  split at h
  · cases h
  split at h
  · cases h
  split at h
  · injection h with hkind _ _
    rw [← hkind]
    split
    · decide
    · exact (ofWord_ne _).2
  split at h
  · injection h with hkind _ _
    rw [← hkind]; decide
  split at h
  · split at h <;> injection h with hkind _ _ <;> rw [← hkind] <;> decide
  · unfold Piece.ofSymbol at h
    split at h <;> injection h with hkind _ _ <;> rw [← hkind]
    · decide
    · decide
    · exact ofChar_ne.2.2

/-- The end token is none of the tokens of a source. -/
theorem TokenStream.kind_ofSource_ne_eof {source : String} : ∀ t ∈ (TokenStream.ofSource source).ahead,
    t.kind ≠ .eof := by
  intro t ht
  obtain ⟨text, hmem⟩ := mem_tokensFrom _ _ t ht
  obtain ⟨before, c, rest, hfirst⟩ := mem_piecesFrom _ _ _ _ hmem
  exact kind_first_ne_eof hfirst.symm

/-! ## Accepted programs are well-formed -/

/-- A name that is spelled like a word and is not reserved, or a number, or something else. -/
def Token.Plain (t : Token) : Prop := t.wellSpelled = true ∧ (t.kind = .ident → Kind.ofWord t.literal = .ident)

theorem Token.Plain.ident {t : Token} (h : t.Plain) (ht : t.kind = .ident) (pos : Pos) :
    (Ident.mk pos t.literal).wellFormed = true := by
  have hword := h.1
  unfold Token.wellSpelled at hword
  rw [ht] at hword
  rw [Ident.wellFormed, Bool.and_eq_true]
  exact ⟨hword, beq_iff_eq.2 (h.2 ht)⟩

theorem Token.Plain.int {t : Token} (h : t.Plain) (ht : t.kind = .int) : isNumber t.literal = true := by
  have hnumber := h.1
  unfold Token.wellSpelled at hnumber
  rw [ht] at hnumber
  exact hnumber

theorem Ident.wellFormed_of_separated {params : List Ident} {ts : List Token} (h : Separated Ident.Yields params ts)
    (hts : ∀ t ∈ ts, t.Plain) : params.all Ident.wellFormed = true := by
  induction h with
  | nil => rfl
  | one h =>
    cases h with
    | mk ht => simpa using (hts _ (by simp)).ident ht _
  | cons h _ _ ih =>
    cases h with
    | mk ht =>
      rw [List.all_cons, (hts _ (by simp)).ident ht _, ih fun t ht => hts t (by simp [ht])]
      rfl

mutual

theorem Expr.Yields.wellFormed : ∀ {e : Expr} {ts : List Token}, e.Yields ts → (∀ t ∈ ts, t.Plain) →
    e.wellFormed = true
  | _, _, .ident ht, hts => (hts _ (by simp)).ident ht _
  | _, _, .int ht hv, hts => by
    rw [Expr.wellFormed, (hts _ (by simp)).int ht, hv]
    simp
  | _, _, .str _, _ => rfl
  | _, _, .bool _, _ => rfl
  | _, _, .grouped _ h _, hts => h.wellFormed fun t ht => hts t (by simp [ht])
  | _, _, .unary _ h, hts => h.wellFormed fun t ht => hts t (by simp [ht])
  | _, _, .binary he _ hf, hts => by
    have he := he.wellFormed fun t ht => hts t (by simp [ht])
    have hf := hf.wellFormed fun t ht => hts t (by simp [ht])
    rw [Expr.wellFormed, he, hf]; rfl
  | _, _, .index he _ hi _, hts => by
    have he := he.wellFormed fun t ht => hts t (by simp [ht])
    have hi := hi.wellFormed fun t ht => hts t (by simp [ht])
    rw [Expr.wellFormed, he, hi]; rfl
  | _, _, .call he _ hargs _, hts => by
    have he := he.wellFormed fun t ht => hts t (by simp [ht])
    have hargs := Expr.wellFormedAll_of_separated hargs fun t ht => hts t (by simp [ht])
    rw [Expr.wellFormed, he, hargs]; rfl
  | _, _, .array _ h _, hts => Expr.wellFormedAll_of_separated h fun t ht => hts t (by simp [ht])
  | _, _, .hash _ h _, hts => Expr.wellFormedPairs_of_separated h fun t ht => hts t (by simp [ht])
  | _, _, .hashComma _ h _ _ _, hts => Expr.wellFormedPairs_of_separated h fun t ht => hts t (by simp [ht])
  | _, _, .cond _ _ hc _ hb, hts => by
    have hc := hc.wellFormed fun t ht => hts t (by simp [ht])
    have hb := hb.wellFormed fun t ht => hts t (by simp [ht])
    rw [Expr.wellFormed, hc, hb]; rfl
  | _, _, .condElse _ _ hc _ hb _ ha, hts => by
    have hc := hc.wellFormed fun t ht => hts t (by simp [ht])
    have hb := hb.wellFormed fun t ht => hts t (by simp [ht])
    have ha := ha.wellFormed fun t ht => hts t (by simp [ht])
    rw [Expr.wellFormed, hc, hb, ha]; rfl
  | _, _, .fn _ _ hparams _ hb, hts => by
    have hparams := Ident.wellFormed_of_separated hparams fun t ht => hts t (by simp [ht])
    have hb := hb.wellFormed fun t ht => hts t (by simp [ht])
    rw [Expr.wellFormed, hparams, hb]; rfl

theorem Expr.wellFormedAll_of_separated : ∀ {es : List Expr} {ts : List Token}, Separated Expr.Yields es ts →
    (∀ t ∈ ts, t.Plain) → Expr.wellFormedAll es = true
  | _, _, .nil, _ => rfl
  | _, _, .one h, hts => by rw [Expr.wellFormedAll, h.wellFormed hts]; rfl
  | _, _, .cons h _ hrest, hts => by
    have h := h.wellFormed fun t ht => hts t (by simp [ht])
    have hrest := Expr.wellFormedAll_of_separated hrest fun t ht => hts t (by simp [ht])
    rw [Expr.wellFormedAll, h, hrest]; rfl

theorem Expr.wellFormedPairs_of_separated : ∀ {pairs : List (Expr × Expr)} {ts : List Token},
    Separated Expr.YieldsPair pairs ts → (∀ t ∈ ts, t.Plain) → Expr.wellFormedPairs pairs = true
  | _, _, .nil, _ => rfl
  | _, _, .one (.mk he _ hf), hts => by
    have he := he.wellFormed fun t ht => hts t (by simp [ht])
    have hf := hf.wellFormed fun t ht => hts t (by simp [ht])
    rw [Expr.wellFormedPairs, he, hf]; rfl
  | _, _, .cons (.mk he _ hf) _ hrest, hts => by
    have he := he.wellFormed fun t ht => hts t (by simp [ht])
    have hf := hf.wellFormed fun t ht => hts t (by simp [ht])
    have hrest := Expr.wellFormedPairs_of_separated hrest fun t ht => hts t (by simp [ht])
    rw [Expr.wellFormedPairs, he, hf, hrest]; rfl

theorem Stmt.Yields.wellFormed : ∀ {s : Stmt} {ts : List Token}, s.Yields ts → (∀ t ∈ ts, t.Plain) →
    s.wellFormed = true
  | _, _, .expr h, hts => h.wellFormed hts
  | _, _, .bind _ hn _ h, hts => by
    have h := h.wellFormed fun t ht => hts t (by simp [ht])
    rw [Stmt.wellFormed, (hts _ (by simp)).ident hn _, h]; rfl
  | _, _, .ret _, _ => rfl
  | _, _, .retValue _ h, hts => h.wellFormed fun t ht => hts t (by simp [ht])

theorem Stmt.YieldsEnded.wellFormed : ∀ {s : Stmt} {ts : List Token}, s.YieldsEnded ts → (∀ t ∈ ts, t.Plain) →
    s.wellFormed = true
  | _, _, .bare h, hts => h.wellFormed hts
  | _, _, .semicolon h _, hts => h.wellFormed fun t ht => hts t (by simp [ht])

theorem Stmt.wellFormedAll_of_sequence : ∀ {statements : List Stmt} {ts : List Token},
    Sequence Stmt.YieldsEnded statements ts → (∀ t ∈ ts, t.Plain) → Stmt.wellFormedAll statements = true
  | _, _, .nil, _ => rfl
  | _, _, .cons h hrest, hts => by
    have h := h.wellFormed fun t ht => hts t (by simp [ht])
    have hrest := Stmt.wellFormedAll_of_sequence hrest fun t ht => hts t (by simp [ht])
    rw [Stmt.wellFormedAll, h, hrest]; rfl

theorem Block.Yields.wellFormed : ∀ {b : Block} {ts : List Token}, b.Yields ts → (∀ t ∈ ts, t.Plain) →
    b.wellFormed = true
  | _, _, .mk _ h _, hts => Stmt.wellFormedAll_of_sequence h fun t ht => hts t (by simp [ht])

end

/-- The program of a source without diagnostics is well-formed, if no reserved word is read as a name. -/
theorem Parsed.wellFormed_of_no_diagnostics {source : String} (h : (parse source).diagnostics = [])
    (hwords : ∀ t ∈ (TokenStream.ofSource source).ahead, t.kind = .ident → Kind.ofWord t.literal = .ident) :
    (parse source).program.wellFormed = true := by
  obtain ⟨ts, q, hts, -, hyields⟩ := derivation_of_no_diagnostics h
  refine Stmt.wellFormedAll_of_sequence hyields fun t ht => ?_
  have hmem : t ∈ (TokenStream.ofSource source).ahead := by
    rw [hts]
    exact List.mem_append_left _ ht
  exact ⟨TokenStream.wellSpelled_ofSource t hmem, hwords t hmem⟩

/-! ## The round trips -/

theorem parse_render_of_wellFormed {p : Program} (h : p.wellFormed = true) :
    (parse p.render).diagnostics = [] ∧ (parse p.render).program.erase = p.erase := by
  have hscans := Program.scans h
  have hlexemes := hscans.scan [] clear_nil
  rw [List.append_nil, scan_nil, List.append_nil] at hlexemes
  exact Program.readsBack h ((lexeme_ofSource hscans.noTab).trans hlexemes)

/-- **Parsing undoes rendering.**  The rendering of a well-formed program parses without diagnostics, to the same
program with other places; and for a source without diagnostics, and without a reserved word that is read as a name, the
rendering of its program parses without diagnostics to a program with the same rendering. -/
theorem parse_render :
    (∀ p : Program, p.wellFormed = true →
      (parse p.render).diagnostics = [] ∧ (parse p.render).program.erase = p.erase) ∧
    ∀ source : String, (parse source).diagnostics = [] →
      (∀ t ∈ (TokenStream.ofSource source).ahead, t.kind = .ident → Kind.ofWord t.literal = .ident) →
        (parse (parse source).program.render).diagnostics = [] ∧
          (parse (parse source).program.render).program.render = (parse source).program.render := by
  refine ⟨fun p h => parse_render_of_wellFormed h, fun source h hwords => ?_⟩
  have hagain := parse_render_of_wellFormed (Parsed.wellFormed_of_no_diagnostics h hwords)
  exact ⟨hagain.1, Program.render_of_erase hagain.2⟩

/-- A call of a conditional, with a bare return in its block and an escape in its argument. -/
theorem parse_render_called :
    (parse (parse "if (a) \x7b return; f(-1) \x7d(\"\\n\")").program.render).program.erase =
        (parse "if (a) \x7b return; f(-1) \x7d(\"\\n\")").program.erase ∧
      (parse (parse "if (a) \x7b return; f(-1) \x7d(\"\\n\")").program.render).program.render =
        (parse "if (a) \x7b return; f(-1) \x7d(\"\\n\")").program.render := by
  have hwell : (parse "if (a) \x7b return; f(-1) \x7d(\"\\n\")").program.wellFormed = true := rfl
  have hnone : (parse "if (a) \x7b return; f(-1) \x7d(\"\\n\")").diagnostics = [] := rfl
  exact ⟨(parse_render.1 _ hwell).2, (parse_render.2 _ hnone (by decide)).2⟩

end Monkey
