import Monkey.Proofs.Phrases
/-!
# Where a block ends

A block never ends behind the brace that closes it, and between its opening brace and the one it ends on no brace is
closed that was opened outside.  It may end too early: the loop of a block takes any closing brace on which the recovery
from a malformed statement stops, and recovery stops on a brace of that very statement if the end, or a `let` or a
`return` of the block, comes right behind it.  `block_ends_on_own_brace_iff` says exactly when a block ends on its own
brace.
-/
namespace Monkey.Parse

open Monkey.Parser

/-- The ways in which the loop of a block comes to its end, one step at a time. -/
theorem blockStatements_done {stmt : Parse Stmt} {n : Nat} {p q : Parser} {statements : List Stmt}
    (h : blockStatements stmt (n + 1) p = .done statements q) :
    (p.cur.kind = .rbrace ∧ statements = [] ∧ q = p) ∨
    (p.cur.kind ≠ .rbrace ∧ ∃ s r rest, stmt p = .done s r ∧ blockStatements stmt n r.advance = .done rest q ∧
      statements = s :: rest) ∨
    (p.cur.kind ≠ .rbrace ∧ ∃ r, stmt p = .malformed r ∧ (r.resume p.depth).cur.kind = .rbrace ∧ statements = [] ∧
      q = r.resume p.depth) ∨
    (p.cur.kind ≠ .rbrace ∧ ∃ r, stmt p = .malformed r ∧ (r.resume p.depth).cur.kind ≠ .rbrace ∧
      blockStatements stmt n (r.resume p.depth).advance = .done statements q) := by
  rw [blockStatements, cur_bind] at h
  generalize hk : p.cur.kind = kind at h
  split at h
  · cases h
    exact .inl ⟨rfl, rfl, rfl⟩
  · cases h
  · rename_i hbrace _
    refine .inr ?_
    rw [look_bind, bind_eq_done] at h
    obtain ⟨s?, r, hattempt, h⟩ := h
    rcases attempt_done hattempt with ⟨s, rfl, hrun⟩ | ⟨rfl, hrun⟩
    · dsimp only at h
      rw [advance_bind, bind_eq_done] at h
      obtain ⟨rest, t, hrest, h⟩ := h
      cases h
      exact .inl ⟨hbrace, s, r, rest, hrun, hrest, rfl⟩
    · dsimp only at h
      rw [resume_bind, cur_bind] at h
      by_cases hc : (r.resume p.depth).cur.kind = .rbrace
      · rw [if_pos hc] at h
        cases h
        exact .inr (.inl ⟨hbrace, r, hrun, hc, rfl, rfl⟩)
      · rw [if_neg hc, advance_bind] at h
        exact .inr (.inr ⟨hbrace, r, hrun, hc, h⟩)

theorem cur_of_blockStatements_done {stmt : Parse Stmt} {n : Nat} {p q : Parser} {statements : List Stmt}
    (h : blockStatements stmt n p = .done statements q) : p.cur.kind ≠ .eof := by
  intro hend
  cases n with
  | zero => cases h
  | succ n => rw [blockStatements, cur_bind, hend] at h; cases h

/-- The loop that reads the statements of a block from `p` on comes to read one at `h`. -/
inductive LoopHead (stmt : Parse Stmt) : Parser → Parser → Prop
  | here (p : Parser) (hc : p.cur.kind ≠ .rbrace) : LoopHead stmt p p
  | kept {p q h : Parser} {s : Stmt} (hc : p.cur.kind ≠ .rbrace) (hrun : stmt p = .done s q)
      (hrest : LoopHead stmt q.advance h) : LoopHead stmt p h
  | dropped {p r h : Parser} (hc : p.cur.kind ≠ .rbrace) (hrun : stmt p = .malformed r)
      (hresume : (r.resume p.depth).cur.kind ≠ .rbrace) (hrest : LoopHead stmt (r.resume p.depth).advance h) :
      LoopHead stmt p h

/-- The statement at `h` leaves a brace of its own open: it is kept and closes fewer braces than it opens, or it is
dropped and recovery falls short. -/
def LeavesOpen (stmt : Parse Stmt) (h : Parser) : Prop :=
  (∃ s q, stmt h = .done s q ∧ h.depth < q.advance.depth) ∨
    ∃ r, stmt h = .malformed r ∧ FallsShort h.depth (r.resume h.depth)

section

variable {stmt : Parse Stmt} {p r : Parser} {s : Stmt}

theorem loopHead_of_done (hc : p.cur.kind ≠ .rbrace) (hrun : stmt p = .done s r) (h : Parser) :
    LoopHead stmt p h ↔ h = p ∨ LoopHead stmt r.advance h := by
  constructor
  · intro hh
    cases hh with
    | here => exact .inl rfl
    | kept _ hrun' hrest => rw [hrun] at hrun'; cases hrun'; exact .inr hrest
    | dropped _ hrun' => rw [hrun] at hrun'; cases hrun'
  · rintro (rfl | hrest)
    · exact .here h hc
    · exact .kept hc hrun hrest

theorem loopHead_of_malformed (hc : p.cur.kind ≠ .rbrace) (hrun : stmt p = .malformed r) (h : Parser) :
    LoopHead stmt p h ↔
      h = p ∨ (r.resume p.depth).cur.kind ≠ .rbrace ∧ LoopHead stmt (r.resume p.depth).advance h := by
  constructor
  · intro hh
    cases hh with
    | here => exact .inl rfl
    | kept _ hrun' => rw [hrun] at hrun'; cases hrun'
    | dropped _ hrun' hresume hrest => rw [hrun] at hrun'; cases hrun'; exact .inr ⟨hresume, hrest⟩
  · rintro (rfl | ⟨hresume, hrest⟩)
    · exact .here h hc
    · exact .dropped hc hrun hresume hrest

theorem leavesOpen_of_done (hrun : stmt p = .done s r) : LeavesOpen stmt p ↔ p.depth < r.advance.depth := by
  constructor
  · rintro (⟨_, _, hrun', hlt⟩ | ⟨_, hrun', -⟩)
    · rw [hrun] at hrun'; cases hrun'; exact hlt
    · rw [hrun] at hrun'; cases hrun'
  · exact fun hlt => .inl ⟨s, r, hrun, hlt⟩

theorem leavesOpen_of_malformed (hrun : stmt p = .malformed r) :
    LeavesOpen stmt p ↔ FallsShort p.depth (r.resume p.depth) := by
  constructor
  · rintro (⟨_, _, hrun', -⟩ | ⟨_, hrun', hs⟩)
    · rw [hrun] at hrun'; cases hrun'
    · rw [hrun] at hrun'; cases hrun'; exact hs
  · exact fun hs => .inr ⟨r, hrun, hs⟩

end

/-- The loop of a block closes no brace that was open where it began, and it ends at the depth where it began exactly
when no statement that it reads leaves a brace open. -/
theorem depth_eq_iff_loopHead {k : Nat} : ∀ (n : Nat) (p q : Parser) (statements : List Stmt),
    (∀ t ∈ p.ahead, t.kind ≠ .eof) → blockStatements (statement k) n p = .done statements q →
      q.cur.kind = .rbrace ∧ p.Reaches q ∧
        (q.depth = p.depth ↔ ∀ h, LoopHead (statement k) p h → ¬ LeavesOpen (statement k) h)
  | 0, _, _, _, _, hrun => nomatch hrun
  | n + 1, p, q, statements, hend, hrun => by
    -- the loop ends, keeps a statement, ends on the brace where a recovery stops, or goes on behind a recovery
    rcases blockStatements_done hrun with ⟨hc, -, rfl⟩ | ⟨hc, s, r, rest, hs, hrest, -⟩ | ⟨hc, r, hs, hr, -, rfl⟩ |
      ⟨hc, r, hs, hr, hrest⟩
    · refine ⟨hc, .refl _, fun _ h hh => ?_, fun _ => rfl⟩
      cases hh <;> contradiction
    · have hreach := ((isPhrase_statement_all k p).of_done hs).opens.reaches
      have hle := hreach.depth_le
      obtain ⟨hq, hrq, ih⟩ :=
        depth_eq_iff_loopHead n r.advance q rest (fun t ht => hend t (hreach.suffix.subset ht)) hrest
      have hge := hrq.depth_le
      refine ⟨hq, hreach.trans hrq, ?_⟩
      simp only [loopHead_of_done hc hs, forall_eq_or_imp, leavesOpen_of_done hs, ← ih]
      omega
    · have hreach := ((isPhrase_statement_all k p).of_malformed hs).reaches.resume
      have hle := hreach.depth_le
      refine ⟨hr, hreach, ?_⟩
      simp only [loopHead_of_malformed hc hs, forall_eq_or_imp, leavesOpen_of_malformed hs, FallsShort, hr, ne_eq,
        not_true_eq_false, false_and, false_imp_iff, implies_true, and_true, true_and]
      omega
    · have hreach := ((isPhrase_statement_all k p).of_malformed hs).reaches
      have hadv : p.Reaches (r.resume p.depth).advance := hreach.resume.advance fun h => absurd h hr
      have hdepth := depth_advance_resume hreach hend hr (cur_of_blockStatements_done hrest)
      obtain ⟨hq, hrq, ih⟩ := depth_eq_iff_loopHead n _ q statements (fun t ht => hend t (hadv.suffix.subset ht)) hrest
      rw [hdepth] at ih
      refine ⟨hq, hadv.trans hrq, ?_⟩
      simp only [loopHead_of_malformed hc hs, forall_eq_or_imp, leavesOpen_of_malformed hs, FallsShort, hr, ne_eq,
        not_false_eq_true, false_and, true_and, ← ih]

/-- The closing brace under the cursor of `q` matches the opening brace under the cursor of `p`. -/
def Matches (p q : Parser) : Prop :=
  p.cur.kind = .lbrace ∧ q.cur.kind = .rbrace ∧
    ∃ body, p.ahead.tail = body ++ q.ahead ∧ Nested body ∧ braces body = 0

theorem matches_iff_depth {p q : Parser} (hp : p.cur.kind = .lbrace) (hq : q.cur.kind = .rbrace)
    (h : p.advance.Reaches q) : Matches p q ↔ q.depth = p.depth + 1 := by
  obtain ⟨ts, hts, hdepth, hnested⟩ := h.tokens
  have hp1 : p.advance.depth = p.depth + 1 := by rw [depth_advance, hp]; rfl
  rw [ahead_advance] at hts
  constructor
  · rintro ⟨-, -, body, hbody, -, hzero⟩
    have : body = ts := List.append_cancel_right (hbody.symm.trans hts)
    rw [this] at hzero
    omega
  · intro hd
    exact ⟨hp, hq, ts, hts, hnested, by omega⟩

/-- **Where a block ends.**  It ends on a closing brace at or before the one that matches its opening brace; on the
matching brace exactly when no statement in its loop leaves a brace open; and if it ends too early, then a recovery has
fallen short on the tokens of the block. -/
theorem block_ends_on_own_brace_iff {k n : Nat} {p q : Parser} {b : Block} (hend : ∀ t ∈ p.ahead, t.kind ≠ .eof)
    (hp : p.cur.kind = .lbrace) (hrun : block (statement k) n p = .done b q) :
    q.cur.kind = .rbrace ∧ p.depth + 1 ≤ q.depth ∧ (Matches p q ↔ q.depth = p.depth + 1) ∧
      (Matches p q ↔ ∀ h, LoopHead (statement k) p.advance h → ¬ LeavesOpen (statement k) h) ∧
      (¬ Matches p q → ∃ (m : Nat) (h r : Parser), h.ahead <:+ p.ahead ∧ statement m h = .malformed r ∧
        FallsShort h.depth (r.resume h.depth)) := by
  have hp1 : p.advance.depth = p.depth + 1 := by rw [depth_advance, hp]; rfl
  have hphrase := ((holds_block (isPhrase_expression k) hp).of_done hrun).1
  rw [block, cur_bind, advance_bind, bind_eq_done] at hrun
  obtain ⟨statements, r, hloop, hpure⟩ := hrun
  cases hpure
  obtain ⟨hq, hreach, hiff⟩ :=
    depth_eq_iff_loopHead n p.advance q statements (fun t ht => hend t (List.mem_of_mem_tail ht)) hloop
  have hdepth := hreach.depth_le
  have hmatch := matches_iff_depth hp hq hreach
  refine ⟨hq, by omega, hmatch, by rw [hmatch, ← hp1]; exact hiff, fun hnot => ?_⟩
  have hadv : q.advance.depth = q.depth - 1 := by rw [depth_advance, hq]; rfl
  -- where no recovery falls short, every phrase opens as many braces as it closes, and a block is a phrase
  refine Classical.byContradiction fun hno => hnot (hmatch.2 ?_)
  have hsteady : p.Steady := ⟨hend, fun m h r hsuf hrun hshort => hno ⟨m, h, r, hsuf, hrun, hshort⟩⟩
  have := hphrase.opens.depth_eq hsteady
  omega

/-- A dropped statement with braces of its own, closed before the semicolon where recovery stops. -/
theorem block_ends_on_own_brace_recovered :
    ∃ b q, block (statement 9) 9 (.ofSource "\x7b \x7b a b \x7d; c \x7d") = .done b q ∧
      Matches (.ofSource "\x7b \x7b a b \x7d; c \x7d") q ∧ b.statements.length = 1 := by
  have hrun : ∃ b q, block (statement 9) 9 (.ofSource "\x7b \x7b a b \x7d; c \x7d") = .done b q ∧
      q.depth = 1 ∧ b.statements.length = 1 := ⟨_, _, rfl, rfl, rfl⟩
  obtain ⟨b, q, hrun, hdepth, hlen⟩ := hrun
  have h := block_ends_on_own_brace_iff (by decide) rfl hrun
  exact ⟨b, q, hrun, h.2.2.1.2 hdepth, hlen⟩

/-- A block that ends on a brace of a statement dropped in it, because a `let` of the block comes right behind it. -/
theorem block_ends_on_nested_brace :
    ∃ b q, block (statement 14) 14 (.ofSource "\x7b \x7b a b \x7d let x = 1; c \x7d") = .done b q ∧
      ¬ Matches (.ofSource "\x7b \x7b a b \x7d let x = 1; c \x7d") q := by
  generalize hp : Parser.ofSource "\x7b \x7b a b \x7d let x = 1; c \x7d" = p
  have hrun : ∃ b q, block (statement 14) 14 p = .done b q ∧ p.ahead.tail = p.ahead.tail.take 3 ++ q.ahead := by
    subst hp; exact ⟨_, _, rfl, rfl⟩
  have hopen : braces (p.ahead.tail.take 3) = 1 := by subst hp; decide
  obtain ⟨b, q, hrun, hahead⟩ := hrun
  refine ⟨b, q, hrun, fun ⟨_, _, body, hbody, _, hzero⟩ => ?_⟩
  have hb : body = p.ahead.tail.take 3 := List.append_cancel_right (hbody.symm.trans hahead)
  rw [hb, hopen] at hzero
  exact absurd hzero (by decide)

end Monkey.Parse
