import Monkey.Proofs.Lossless
import Monkey.Proofs.Tabs
/-!
# Places in order

The tokens of a source stand at increasing places, from line to line and within a line from column to column.  The end
token need not stand behind them.  It is placed in the source as it stands and the others where the tabs are expanded,
so tabs on the last line widen the columns of the tokens behind them, and those of the end token not.  The places
increase up to the end just if the tabs before a token of the last line widen it by fewer columns than there are
characters left (`places_increase`).
-/
namespace Monkey

namespace Pos

/-- An earlier line, or an earlier column of the same line. -/
def Before (p q : Pos) : Prop := p.line < q.line ∨ p.line = q.line ∧ p.column < q.column

instance (p q : Pos) : Decidable (p.Before q) := inferInstanceAs (Decidable (_ ∨ _))

theorem Before.trans {p q r : Pos} (h : p.Before q) (h' : q.Before r) : p.Before r := by
  unfold Before at *
  omega

theorem before_step (p : Pos) (c : Char) : p.Before (p.step c) := by
  unfold Before step
  split
  · exact .inl (Nat.lt_succ_self _)
  · exact .inr ⟨rfl, Nat.lt_succ_self _⟩

/-- Every character moves a place on. -/
theorem before_after (c : Char) (text : List Char) : ∀ p : Pos, p.Before (p.after (c :: text)) := by
  induction text generalizing c with
  | nil => exact fun p => p.before_step c
  | cons d text ih => exact fun p => (p.before_step c).trans (ih d (p.step c))

theorem behind_append (front text : List Char) : behind (front ++ text) = (behind front).after text := by
  rw [← after_start, ← after_start, after_append]

theorem behind_take_before {text : List Char} {i j : Nat} (hij : i < j) (hj : j ≤ text.length) :
    (behind (text.take i)).Before (behind (text.take j)) := by
  have hsplit : text.take j = text.take i ++ (text.drop i).take (j - i) := by
    rw [← List.take_add, Nat.add_sub_cancel' (Nat.le_of_lt hij)]
  have hlength : ((text.drop i).take (j - i)).length = j - i := by
    rw [List.length_take, List.length_drop]
    omega
  rw [hsplit, behind_append]
  cases hpassed : (text.drop i).take (j - i) with
  | nil =>
    rw [hpassed] at hlength
    simp at hlength
    omega
  | cons c passed => exact before_after c passed _

end Pos

/-- Every token stands before the next. -/
def Increasing (tokens : List Token) : Prop := tokens.Pairwise fun t u => t.pos.Before u.pos

instance (tokens : List Token) : Decidable (Increasing tokens) := inferInstanceAs (Decidable (List.Pairwise _ _))

/-- Where tokens follow each other in a text, their places increase. -/
theorem Lossless.increasing {text : List Char} {tokens : List (Token × Span)} {comments : List Span}
    (h : Lossless text tokens comments) : Increasing (tokens.map Prod.fst) := by
  refine List.pairwise_map.2 (h.ordered.imp_of_mem fun {p q} hp hq hbefore => ?_)
  rw [h.pos p hp, h.pos q hq]
  obtain ⟨hp, -⟩ := h.within p hp
  obtain ⟨hq, hlength⟩ := h.within q hq
  have hbefore : p.2.stop ≤ q.2.start := hbefore
  exact Pos.behind_take_before (by omega) (by omega)

theorem increasing_ahead (source : String) : Increasing (TokenStream.ofSource source).ahead :=
  tokenize_placed source ▸ (lossless_placed _).increasing

/-! ## Tokens in the source as it stands -/

/-- A token begins with a character that is not blank. -/
theorem begins_of_mem_placed {text : List Char} {p : Token × Span} (h : p ∈ placed text) :
    ∃ front c behind, text = front ++ c :: behind ∧ Text.isBlank c = false ∧ p.1.pos = .behind front := by
  obtain ⟨kind, span, literal, hq, ht⟩ := mem_placed h
  obtain ⟨pre, post, hps, hspan⟩ := split_of_mem_layout hq
  obtain ⟨before, c, rest, hfirst⟩ := mem_piecesFrom text none 0 _ (hps ▸ List.mem_append_right _ List.mem_cons_self)
  obtain ⟨w, hw, -⟩ := text_first before c rest
  have htext : text = pre.flatMap Piece.text ++ c :: (w ++ post.flatMap Piece.text) := by
    rw [← text_pieces text, hps, List.flatMap_append, List.flatMap_cons, hfirst, hw]
    rfl
  refine ⟨_, c, _, htext, ?_, ?_⟩
  · cases hblank : Text.isBlank c with
    | false => rfl
    | true =>
      unfold Piece.first at hfirst
      rw [if_pos hblank] at hfirst
      cases hfirst
  · rw [ht, hspan, Nat.zero_add]
    show Pos.behind (text.take (pre.flatMap Piece.text).length) = _
    rw [htext, List.take_left]

/-- Every token begins behind some part of the source, at the place where that ends when its tabs are expanded. -/
theorem front_of_token {source : String} {t : Token} (ht : t ∈ (TokenStream.ofSource source).ahead) :
    ∃ front c rest, source.toList = front ++ c :: rest ∧ t.pos = .behind (Text.Tab.expand front) := by
  rw [tokenize_placed] at ht
  obtain ⟨p, hp, rfl⟩ := List.mem_map.1 ht
  obtain ⟨front, c, behind, htext, hblank, hpos⟩ := begins_of_mem_placed hp
  have hspace : c ≠ ' ' := fun h => by rw [h] at hblank; cases hblank
  obtain ⟨pre, e, post, hsource, rfl⟩ := Text.Tab.eq_append_of_expandFrom hspace _ htext
  exact ⟨pre, e, post, hsource, hpos⟩

/-! ## How far tabs widen a line -/

/-- The columns that the tabs of a text add to its last line. -/
def Text.Tab.widening (text : List Char) : Nat := (Pos.behind (expand text)).column - (Pos.behind text).column

theorem after_spaces (k : Nat) (p : Pos) : p.after (List.replicate k ' ') = ⟨p.line, p.column + k⟩ := by
  rw [Pos.after_line (fun h => absurd (List.eq_of_mem_replicate h) (by decide)), List.length_replicate]

/-- Expanding tabs takes no place back. -/
theorem column_le_expandFrom (text : List Char) : ∀ {n : Nat} {p q : Pos}, p.column ≤ q.column →
    (p.after text).column ≤ (q.after (Text.Tab.expandFrom n text)).column := by
  induction text with
  | nil => exact id
  | cons c text ih =>
    intro n p q h
    by_cases htab : c = '\t'
    · subst htab
      obtain ⟨k, hk⟩ := Text.Tab.expandFrom_tab n
      rw [hk, Pos.after_append, after_spaces]
      exact ih (Nat.le_trans (Nat.succ_le_succ h) (by simp))
    · obtain ⟨m, hm⟩ := Text.Tab.expandFrom_cons_of_ne htab n
      rw [hm]
      refine ih (p := p.step c) (q := q.step c) ?_
      unfold Pos.step
      split
      · exact Nat.le_refl 1
      · exact Nat.succ_le_succ h

/-- Tabs in front of a line feed do not widen the last line. -/
theorem column_expandFrom_eq (text : List Char) : ∀ {n : Nat} {p q : Pos},
    (∀ pre post, text = pre ++ '\t' :: post → '\n' ∈ post) → p.column = q.column ∨ '\n' ∈ text →
    (p.after text).column = (q.after (Text.Tab.expandFrom n text)).column := by
  induction text with
  | nil => exact fun _ h => h.resolve_right List.not_mem_nil
  | cons c text ih =>
    intro n p q hfeed h
    have htail : ∀ pre post, text = pre ++ '\t' :: post → '\n' ∈ post := fun pre post htext =>
      hfeed (c :: pre) post (congrArg (c :: ·) htext)
    by_cases htab : c = '\t'
    · subst htab
      obtain ⟨k, hk⟩ := Text.Tab.expandFrom_tab n
      rw [hk, Pos.after_append]
      exact ih htail (.inr (hfeed [] text rfl))
    · obtain ⟨m, hm⟩ := Text.Tab.expandFrom_cons_of_ne htab n
      rw [hm]
      refine ih (p := p.step c) (q := q.step c) htail ?_
      unfold Pos.step
      by_cases hc : c = '\n'
      · rw [if_pos hc, if_pos hc]
        exact .inl rfl
      · rw [if_neg hc, if_neg hc]
        exact h.imp (congrArg (· + 1)) fun hmem => (List.mem_cons.1 hmem).resolve_left (Ne.symm hc)

theorem column_behind_expand (text : List Char) :
    (Pos.behind (Text.Tab.expand text)).column = (Pos.behind text).column + Text.Tab.widening text := by
  have hle : (Pos.behind text).column ≤ (Pos.behind (Text.Tab.expand text)).column := by
    rw [← Pos.after_start, ← Pos.after_start]
    exact column_le_expandFrom text (Nat.le_refl _)
  rw [Text.Tab.widening, Nat.add_sub_cancel' hle]

theorem widening_eq_zero {text : List Char} (h : ∀ pre post, text = pre ++ '\t' :: post → '\n' ∈ post) :
    Text.Tab.widening text = 0 := by
  have heq := column_expandFrom_eq text (n := 0) (p := .start) h (.inl rfl)
  rw [Pos.after_start, Pos.after_start] at heq
  rw [Text.Tab.widening, heq]
  exact Nat.sub_self _

theorem line_behind_expand (text : List Char) : (Pos.behind (Text.Tab.expand text)).line = (Pos.behind text).line :=
  congrArg (1 + ·) (count_expandFrom text 0)

/-! ## The end token -/

/-- The end of a source is behind a place in it that is widened by tabs just if it is on a later line, or if the tabs
widen it by fewer columns than there are characters left. -/
theorem before_end_iff (front rest : List Char) :
    (Pos.behind (Text.Tab.expand front)).Before (.behind (front ++ rest)) ↔
      ('\n' ∉ rest → Text.Tab.widening front < rest.length) := by
  have hline := Pos.line_after rest (.behind front)
  unfold Pos.Before
  rw [line_behind_expand, column_behind_expand, Pos.behind_append, hline]
  by_cases hfeed : '\n' ∈ rest
  · have hcount := List.count_pos_iff.2 hfeed
    exact ⟨fun _ hnot => absurd hfeed hnot, fun _ => .inl (by omega)⟩
  · have hcount := List.count_eq_zero.2 hfeed
    rw [hcount, Pos.after_line hfeed]
    simp only [hfeed, not_false_eq_true, true_imp_iff]
    omega

theorem increasing_tokenize_iff (source : String) : Increasing (tokenize source) ↔
    ∀ t ∈ (TokenStream.ofSource source).ahead, t.pos.Before (.behind source.toList) := by
  rw [← Pos.after_start]
  refine List.pairwise_append.trans ⟨fun h t ht => h.2.2 t ht _ List.mem_cons_self, fun h => ?_⟩
  exact ⟨increasing_ahead source, List.pairwise_singleton _ _, fun t ht u hu => List.mem_singleton.1 hu ▸ h t ht⟩

theorem before_end_of_token {source : String} {t : Token} (ht : t ∈ (TokenStream.ofSource source).ahead) :
    t.pos.Before (.behind source.toList) ↔ ∀ front rest, source.toList = front ++ rest → '\n' ∉ rest →
      t.pos = .behind (Text.Tab.expand front) → Text.Tab.widening front < rest.length := by
  constructor
  · intro h front rest hsource hfeed hpos
    rw [hpos, hsource] at h
    exact (before_end_iff front rest).1 h hfeed
  · intro h
    obtain ⟨front, c, rest, hsource, hpos⟩ := front_of_token ht
    rw [hpos, hsource]
    exact (before_end_iff front (c :: rest)).2 fun hfeed => h front (c :: rest) hsource hfeed hpos

/-- If a line feed is behind every tab, no tab widens the last line. -/
theorem before_end_of_feeds {source : String} (h : ∀ pre post, source.toList = pre ++ '\t' :: post → '\n' ∈ post)
    {t : Token} (ht : t ∈ (TokenStream.ofSource source).ahead) : t.pos.Before (.behind source.toList) := by
  obtain ⟨front, c, rest, hsource, hpos⟩ := front_of_token ht
  rw [hpos, hsource]
  refine (before_end_iff front (c :: rest)).2 fun hfeed => ?_
  have hzero : Text.Tab.widening front = 0 := widening_eq_zero fun pre post hfront => by
    have hmem := h pre (post ++ c :: rest) (by rw [hsource, hfront]; simp)
    exact (List.mem_append.1 hmem).resolve_right hfeed
  rw [hzero]
  exact Nat.succ_pos _

/-- **The places of tokens increase**, and up to the end token just if every token of the last line begins where the
tabs before it widen that line by fewer columns than there are characters left.  So they do if a line feed is behind
every tab. -/
theorem places_increase (source : String) :
    Increasing (TokenStream.ofSource source).ahead ∧
      (Increasing (tokenize source) ↔ ∀ t ∈ (TokenStream.ofSource source).ahead, ∀ front rest,
        source.toList = front ++ rest → '\n' ∉ rest → t.pos = .behind (Text.Tab.expand front) →
          Text.Tab.widening front < rest.length) ∧
      ((∀ pre post, source.toList = pre ++ '\t' :: post → '\n' ∈ post) → Increasing (tokenize source)) :=
  ⟨increasing_ahead source,
    (increasing_tokenize_iff source).trans (forall₂_congr fun _ ht => before_end_of_token ht),
    fun h => (increasing_tokenize_iff source).2 fun _ ht => before_end_of_feeds h ht⟩

/-- A tab, and a name behind it: it is placed in the ninth column, and the end token in the third. -/
theorem not_increasing_tab : ¬ Increasing (tokenize "\tx") ∧
    tokenize "\tx" = [⟨.ident, "x", ⟨1, 9⟩⟩, .atEnd ⟨1, 3⟩] := by
  decide +kernel

end Monkey
