import Mathlib.Algebra.Ring.Int.Defs
import Monkey.Proofs.Rule
/-!
# The way of the cursor

How far a rule moves the cursor, and how many braces are open there.  `Parser.Reaches` is the relation that every rule
keeps: the cursor moves on, no brace that was open at the start is closed on the way, and no diagnostic is lost.  A
finished phrase (`Parser.Phrase`) closes every brace that it opens, with one exception that comes from recovery: the
skipping of a malformed statement may end on a closing brace of that statement itself (`Parser.FallsShort`), and a block
that takes this brace for its own leaves one open.
-/
namespace Monkey

/-- The braces that tokens leave open, each closing one counted against an opening one. -/
def braces (ts : List Token) : Int := (ts.map (·.kind.braces)).sum

/-- Tokens that close only braces which they have opened. -/
def Nested (ts : List Token) : Prop := ∀ us, us <+: ts → 0 ≤ braces us

theorem braces_append (ts us : List Token) : braces (ts ++ us) = braces ts + braces us := by
  simp [braces]

theorem braces_singleton (t : Token) : braces [t] = t.kind.braces := by
  simp [braces]

instance (ts : List Token) : Decidable (Nested ts) :=
  decidable_of_iff (∀ n ≤ ts.length, 0 ≤ braces (ts.take n))
    ⟨fun h us hus => by rw [List.prefix_iff_eq_take.1 hus]; exact h _ hus.length_le,
      fun h n _ => h _ (List.take_prefix n ts)⟩

theorem nested_nil : Nested [] := fun us h => by
  rw [List.prefix_nil.1 h]; simp [braces]

theorem Nested.braces_nonneg {ts : List Token} (h : Nested ts) : 0 ≤ braces ts := h ts List.prefix_rfl

theorem Nested.append {ts us : List Token} (ht : Nested ts) (hu : Nested us) : Nested (ts ++ us) := by
  intro vs hvs
  rcases List.prefix_or_prefix_of_prefix hvs (List.prefix_append ts us) with h | ⟨ws, rfl⟩
  · exact ht vs h
  · have := ht.braces_nonneg
    have := hu ws ((List.prefix_append_right_inj ts).1 hvs)
    rw [braces_append]; omega

theorem Nested.concat {ts : List Token} (h : Nested ts) {t : Token} (ht : 0 ≤ braces ts + t.kind.braces) :
    Nested (ts ++ [t]) := by
  intro us hus
  rcases List.prefix_concat_iff.1 hus with rfl | hus
  · rw [braces_append, braces_singleton]; exact ht
  · exact h us hus

theorem Kind.braces_ge (kind : Kind) : -1 ≤ kind.braces := by
  cases kind <;> decide

theorem Kind.braces_nonneg {kind : Kind} (h : kind ≠ .rbrace) : 0 ≤ kind.braces := by
  cases kind <;> first | decide | exact absurd rfl h

/-- A token that binds an operand is neither a brace nor the end. -/
theorem Kind.operator_of_rank {kind : Kind} {precedence : Precedence} (h : precedence.rank < kind.precedence.rank) :
    kind.braces = 0 ∧ kind ≠ .eof ∧ kind ≠ .semicolon := by
  have hp : 1 ≤ precedence.rank := by cases precedence <;> decide
  have hk : 1 < kind.precedence.rank := by omega
  cases kind <;> first | decide | exact absurd hk (by decide)

namespace Parser

variable {p q r s : Parser}

@[simp] theorem ahead_advance (p : Parser) : p.advance.ahead = p.ahead.tail := rfl
@[simp] theorem depth_advance (p : Parser) : p.advance.depth = p.depth + p.cur.kind.braces := rfl
@[simp] theorem diagnostics_advance (p : Parser) : p.advance.diagnostics = p.diagnostics := rfl
@[simp] theorem cur_advance (p : Parser) : p.advance.cur = p.peek := rfl

theorem cur_of_ahead {t : Token} {ts : List Token} (h : p.ahead = t :: ts) : p.cur = t := by
  rw [cur, h]; rfl

theorem cur_of_ahead_nil (h : p.ahead = []) : p.cur.kind = .eof := by
  rw [cur, h]; rfl

theorem ahead_ne_of_cur (h : p.cur.kind ≠ .eof) : p.ahead ≠ [] := fun hp => h (cur_of_ahead_nil hp)

theorem ahead_ne_of_peek (h : p.peek.kind ≠ .eof) : p.ahead.tail ≠ [] := ahead_ne_of_cur (p := p.advance) h

/-! ## Reaching a place -/

/-- The cursor moves from `p` to `q` over tokens that close no brace open at `p`, and no diagnostic is lost. -/
structure Reaches (p q : Parser) : Prop where
  tokens : ∃ ts, p.ahead = ts ++ q.ahead ∧ q.depth = p.depth + braces ts ∧ Nested ts
  diagnostics : p.diagnostics <+: q.diagnostics

theorem Reaches.refl (p : Parser) : p.Reaches p :=
  ⟨⟨[], rfl, by simp [braces], nested_nil⟩, List.prefix_rfl⟩

theorem Reaches.trans (hpq : p.Reaches q) (hqr : q.Reaches r) : p.Reaches r := by
  obtain ⟨ts, hts, hdt, hnt⟩ := hpq.tokens
  obtain ⟨us, hus, hdu, hnu⟩ := hqr.tokens
  refine ⟨⟨ts ++ us, ?_, ?_, hnt.append hnu⟩, hpq.diagnostics.trans hqr.diagnostics⟩
  · rw [hts, hus, List.append_assoc]
  · rw [hdu, hdt, braces_append]; omega

theorem Reaches.suffix (h : p.Reaches q) : q.ahead <:+ p.ahead := by
  obtain ⟨ts, hts, -⟩ := h.tokens
  exact ⟨ts, hts.symm⟩

theorem Reaches.length_le (h : p.Reaches q) : q.ahead.length ≤ p.ahead.length := h.suffix.length_le

theorem Reaches.depth_le (h : p.Reaches q) : p.depth ≤ q.depth := by
  obtain ⟨ts, -, hd, hn⟩ := h.tokens
  have := hn.braces_nonneg
  omega

theorem Reaches.count_le (h : p.Reaches q) : p.diagnostics.length ≤ q.diagnostics.length := h.diagnostics.length_le

/-- One step further, unless it closes a brace that was open at the start. -/
theorem Reaches.advance (h : p.Reaches q) (hq : q.cur.kind = .rbrace → p.depth < q.depth) : p.Reaches q.advance := by
  obtain ⟨ts, hts, hd, hn⟩ := h.tokens
  refine ⟨?_, h.diagnostics⟩
  cases hqa : q.ahead with
  | nil =>
    refine ⟨ts, by rw [hts, hqa, ahead_advance, hqa]; rfl, ?_, hn⟩
    rw [depth_advance, cur_of_ahead_nil hqa, hd]; simp [Kind.braces]
  | cons t us =>
    have hcur : q.cur = t := cur_of_ahead hqa
    refine ⟨ts ++ [t], by rw [hts, hqa, ahead_advance, hqa]; simp, ?_, hn.concat ?_⟩
    · rw [depth_advance, hcur, hd, braces_append, braces_singleton]; omega
    · by_cases ht : t.kind = .rbrace
      · have := hq (hcur ▸ ht)
        have := t.kind.braces_ge
        omega
      · have := Kind.braces_nonneg ht
        have := hn.braces_nonneg
        omega

theorem Reaches.report (h : p.Reaches q) (d : Diagnostic) : p.Reaches (q.report d) :=
  ⟨h.tokens, h.diagnostics.trans (List.prefix_append _ _)⟩

theorem Reaches.mark (h : p.Reaches q) (m : Mark) : p.Reaches (q.mark m) := ⟨h.tokens, h.diagnostics⟩

theorem Reaches.of_mark {m : Mark} (h : (p.mark m).Reaches q) : p.Reaches q := ⟨h.tokens, h.diagnostics⟩

/-! ## Recovery -/

theorem resumeWithin_isResumption : ∀ (n : Nat) (p : Parser) (d : Int), p.ahead.length ≤ n →
    (resumeWithin n p d).isResumption d = true
  | 0, p, d, h => by
    have : p.cur.kind = .eof := cur_of_ahead_nil (List.length_eq_zero_iff.1 (Nat.le_zero.1 h))
    simp [resumeWithin, isResumption, this]
  | n + 1, p, d, h => by
    rw [resumeWithin]
    split
    · assumption
    · exact resumeWithin_isResumption n p.advance d (by rw [ahead_advance, List.length_tail]; omega)

/-- Recovery ends at a place where the statement can be left. -/
theorem isResumption_resume (p : Parser) (d : Int) : (p.resume d).isResumption d = true :=
  resumeWithin_isResumption _ p d (Nat.le_refl _)

theorem Reaches.resumeWithin {d : Int} (hd : s.depth ≤ d) : ∀ (n : Nat) (p : Parser), s.Reaches p →
    s.Reaches (resumeWithin n p d)
  | 0, _, h => h
  | n + 1, p, h => by
    rw [Parser.resumeWithin]
    split
    · exact h
    · rename_i hp
      refine Reaches.resumeWithin hd n p.advance (h.advance fun hc => ?_)
      have : ¬ p.depth ≤ d := fun hle => hp (by simp [isResumption, hc, hle])
      omega

/-- **Recovery closes no brace that was open where the malformed statement began.** -/
theorem Reaches.resume (h : s.Reaches p) : s.Reaches (p.resume s.depth) :=
  Reaches.resumeWithin (Int.le_refl _) _ p h

/-- The recovery from a statement that began at a brace depth ends at `q` on a closing brace of that statement. -/
def FallsShort (depth : Int) (q : Parser) : Prop := q.cur.kind = .rbrace ∧ depth < q.depth

/-- From `p` on, the end stands only behind the last token, and no recovery from a malformed statement falls short. -/
structure Steady (p : Parser) : Prop where
  noEnd : ∀ t ∈ p.ahead, t.kind ≠ .eof
  noShortfall : ∀ (n : Nat) (h r : Parser), h.ahead <:+ p.ahead → Parse.statement n h = .malformed r →
    ¬ FallsShort h.depth (r.resume h.depth)

theorem Steady.of_reaches (hpq : p.Reaches q) (h : p.Steady) : q.Steady :=
  ⟨fun t ht => h.noEnd t (hpq.suffix.subset ht), fun n k r hk => h.noShortfall n k r (hk.trans hpq.suffix)⟩

theorem ahead_eq_nil_of_cur (h : ∀ t ∈ p.ahead, t.kind ≠ .eof) (hc : p.cur.kind = .eof) : p.ahead = [] := by
  cases hp : p.ahead with
  | nil => rfl
  | cons t ts =>
    rw [cur_of_ahead hp] at hc
    exact absurd hc (h t (by rw [hp]; exact List.mem_cons_self))

/-! ## Phrases -/

/-- On the way from `s` to `p`, `k` braces are opened that stay open; more than `k` only if a recovery falls short. -/
structure Opens (k : Nat) (s p : Parser) : Prop where
  reaches : s.Reaches p
  depth_ge : s.depth + k ≤ p.depth
  depth_eq : s.Steady → p.depth = s.depth + k

theorem Opens.refl (p : Parser) : p.Opens 0 p := ⟨.refl p, by simp, by simp⟩

theorem Opens.trans {k l : Nat} (hsp : s.Opens k p) (hpq : p.Opens l q) : s.Opens (k + l) q := by
  refine ⟨hsp.reaches.trans hpq.reaches, ?_, fun hs => ?_⟩
  · have := hsp.depth_ge
    have := hpq.depth_ge
    omega
  · have := hsp.depth_eq hs
    have := hpq.depth_eq (hs.of_reaches hsp.reaches)
    omega

/-- One token further: an opening brace opens one more, and a closing brace closes one that was opened. -/
theorem Opens.advance {k l : Nat} (h : s.Opens k p) (hl : (l : Int) = k + p.cur.kind.braces) : s.Opens l p.advance := by
  refine ⟨h.reaches.advance fun hc => ?_, ?_, fun hs => ?_⟩
  · have := h.depth_ge
    simp only [hc, Kind.braces] at hl
    omega
  · have := h.depth_ge
    rw [depth_advance]; omega
  · have := h.depth_eq hs
    rw [depth_advance]; omega

/-- A statement that began at `p` and is malformed at `r` is skipped up to a closing brace: behind it one brace less is
open, unless the recovery falls short. -/
theorem Opens.resume_rbrace {k n : Nat} (h : s.Opens (k + 1) p) (hr : p.Reaches r)
    (hrun : Parse.statement n p = .malformed r) (hc : (r.resume p.depth).cur.kind = .rbrace) :
    s.Opens k (r.resume p.depth).advance := by
  have hq := hr.resume
  have hpq := hq.depth_le
  have hsp := h.depth_ge
  have hadv : (r.resume p.depth).advance.depth = (r.resume p.depth).depth - 1 := by
    rw [depth_advance, hc]; rfl
  refine ⟨(h.reaches.trans hq).advance fun _ => by omega, by omega, fun hs => ?_⟩
  have hns := (hs.of_reaches h.reaches).noShortfall n p r List.suffix_rfl hrun
  have : ¬ p.depth < (r.resume p.depth).depth := fun hlt => hns ⟨hc, hlt⟩
  have := h.depth_eq hs
  omega

/-- If the skipping ends elsewhere, no brace more or less is open behind it, unless the tokens end there. -/
theorem depth_advance_resume (hr : p.Reaches r) (hend : ∀ t ∈ p.ahead, t.kind ≠ .eof)
    (hc : (r.resume p.depth).cur.kind ≠ .rbrace) (he : (r.resume p.depth).advance.cur.kind ≠ .eof) :
    (r.resume p.depth).advance.depth = p.depth := by
  have hstop := isResumption_resume r p.depth
  generalize hqdef : r.resume p.depth = q at hc he hstop
  have hpq : p.Reaches q := hqdef ▸ hr.resume
  refine Int.le_antisymm ?_ (hpq.advance fun h => absurd h hc).depth_le
  rw [cur_advance] at he
  simp only [isResumption, Bool.or_eq_true, Bool.and_eq_true, beq_iff_eq, decide_eq_true_eq, hc, he, or_false] at hstop
  rcases hstop with (hstop | ⟨hsemi, hle⟩) | ⟨-, hle⟩
  · have hnil := ahead_eq_nil_of_cur (fun t ht => hend t (hpq.suffix.subset ht)) hstop
    exact absurd (cur_of_ahead_nil (p := q.advance) (by rw [ahead_advance, hnil]; rfl)) he
  · rw [depth_advance, hsemi]; simpa [Kind.braces] using hle
  · exact hle

theorem Opens.resume {k : Nat} (h : s.Opens k p) (hr : p.Reaches r) (hc : (r.resume p.depth).cur.kind ≠ .rbrace)
    (he : (r.resume p.depth).advance.cur.kind ≠ .eof) : s.Opens k (r.resume p.depth).advance := by
  have hadv : p.Reaches (r.resume p.depth).advance := hr.resume.advance fun h => absurd h hc
  refine ⟨h.reaches.trans hadv, Int.le_trans h.depth_ge hadv.depth_le, fun hs => ?_⟩
  rw [← h.depth_eq hs]
  exact depth_advance_resume hr (hs.of_reaches h.reaches).noEnd hc he

/-- From `s` to the token under the cursor at `q` stands a phrase that leaves `k` braces open. -/
structure Phrase (k : Nat) (s q : Parser) : Prop where
  reaches : s.Reaches q
  ahead_ne : q.ahead ≠ []
  opens : s.Opens k q.advance

theorem Phrase.single {k : Nat} (h : p.cur.kind ≠ .eof) (hk : p.cur.kind.braces = k) : p.Phrase k p :=
  ⟨.refl p, ahead_ne_of_cur h, (Opens.refl p).advance (by simp [hk])⟩

theorem Phrase.append {k l : Nat} (h : s.Phrase k p) (h' : p.advance.Phrase l q) : s.Phrase (k + l) q :=
  ⟨h.opens.reaches.trans h'.reaches, h'.ahead_ne, h.opens.trans h'.opens⟩

/-- A phrase and the token behind it. -/
theorem Phrase.token {k l : Nat} {kind : Kind} (h : s.Phrase k p) (hp : p.peek.kind = kind) (he : kind ≠ .eof)
    (hl : (l : Int) = k + kind.braces) : s.Phrase l p.advance :=
  ⟨h.opens.reaches, ahead_ne_of_peek (hp ▸ he), h.opens.advance (by rw [cur_advance, hp]; exact hl)⟩

theorem Phrase.mark {k : Nat} (h : s.Phrase k q) (m : Mark) : s.Phrase k (q.mark m) :=
  ⟨h.reaches.mark m, h.ahead_ne, ⟨h.opens.reaches.mark m, h.opens.depth_ge, h.opens.depth_eq⟩⟩

theorem Phrase.of_mark {k : Nat} {m : Mark} (h : (s.mark m).Phrase k q) : s.Phrase k q :=
  ⟨h.reaches.of_mark, h.ahead_ne,
    ⟨h.opens.reaches.of_mark, h.opens.depth_ge, fun hs => h.opens.depth_eq ⟨hs.noEnd, hs.noShortfall⟩⟩⟩

theorem Phrase.length_lt {k : Nat} (h : s.Phrase k q) : q.advance.ahead.length < s.ahead.length := by
  have := h.reaches.length_le
  have := List.length_pos_iff.2 h.ahead_ne
  rw [ahead_advance, List.length_tail]; omega

/-- Malformed input: the rule has stopped at `q` and has said why. -/
structure Broken (s q : Parser) : Prop where
  reaches : s.Reaches q
  reported : s.diagnostics.length < q.diagnostics.length

theorem Reaches.broken (h : s.Reaches q) (d : Diagnostic) : s.Broken (q.report d) :=
  ⟨h.report d, by have := h.count_le; simp only [Parser.report, List.length_append, List.length_singleton]; omega⟩

theorem Broken.of_reaches (h : s.Reaches p) (h' : p.Broken q) : s.Broken q :=
  ⟨h.trans h'.reaches, Nat.lt_of_le_of_lt h.count_le h'.reported⟩

theorem Broken.mark (h : s.Broken q) (m : Mark) : s.Broken (q.mark m) := ⟨h.reaches.mark m, h.reported⟩

theorem Broken.of_mark {m : Mark} (h : (s.mark m).Broken q) : s.Broken q := ⟨h.reaches.of_mark, h.reported⟩

end Parser

end Monkey
