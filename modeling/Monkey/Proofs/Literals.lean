import Monkey.Ast.Node
import Monkey.Proofs.Motion
/-!
# Names and literals in trees

What stands at the leaves of a tree is taken from the tokens of its text: a name or a string is one of them, and a number
is the value of one (`Node.Drawn`), so it is no larger than the largest integer (`Node.Valued`).  The parser makes no
other trees, whatever is wrong with the source: one statement for each rule of the grammar, about its results where the
tokens ahead are among some given ones (`Parse.Draws`).
-/
namespace Monkey

/-- Every number in a tree is the value of its literal. -/
inductive Node.Valued : Node → Prop
  | mk {nd : Node}
      (number : ∀ pos literal value, nd = .expr (.int pos literal value) → Parse.integer? literal = some value)
      (parts : ∀ child ∈ nd.children, Valued child) : Valued nd

namespace Node.Valued

theorem child {nd child : Node} (h : nd.Valued) (hc : child ∈ nd.children) : child.Valued := by
  cases h with
  | mk _ parts => exact parts child hc

theorem number {pos : Pos} {literal : String} {value : Nat} (h : (expr (.int pos literal value)).Valued) :
    Parse.integer? literal = some value := by
  cases h with
  | mk number _ => exact number _ _ _ rfl

theorem parent {nd : Node} (hne : ∀ pos literal value, nd ≠ .expr (.int pos literal value))
    (h : ∀ child ∈ nd.children, child.Valued) : nd.Valued :=
  .mk (fun _ _ _ heq => absurd heq (hne _ _ _)) h

end Node.Valued

theorem valued_ident (id : Ident) : (Node.ident id).Valued := .parent nofun (List.forall_mem_nil _)

/-- The pairs of a hash literal are made of such trees. -/
def ValuedPairs (pairs : List (Expr × Expr)) : Prop :=
  ∀ pair ∈ pairs, (Node.expr pair.1).Valued ∧ (Node.expr pair.2).Valued

theorem valuedPairs_of_hash {pos : Pos} {pairs : List (Expr × Expr)} (h : (Node.expr (.hash pos pairs)).Valued) :
    ValuedPairs pairs := fun pair hpair =>
  ⟨h.child (List.mem_flatMap.2 ⟨pair, hpair, List.mem_cons_self⟩),
    h.child (List.mem_flatMap.2 ⟨pair, hpair, List.mem_cons_of_mem _ List.mem_cons_self⟩)⟩

/-- A leaf of a tree is a token among some, or the value of one. -/
def Node.Taken (T : List Token) : Node → Prop
  | expr (.ident id) => id.token ∈ T
  | expr (.int pos literal value) => ⟨.int, literal, pos⟩ ∈ T ∧ Parse.integer? literal = some value
  | expr (.str pos text) => ⟨.string, text, pos⟩ ∈ T
  | _ => True

/-- Every leaf of a tree is taken from some tokens. -/
inductive Node.Drawn (T : List Token) : Node → Prop
  | mk {nd : Node} (taken : nd.Taken T) (parts : ∀ child ∈ nd.children, Drawn T child) : Drawn T nd

namespace Node.Drawn

variable {T : List Token} {nd : Node}

theorem taken (h : nd.Drawn T) : nd.Taken T := by
  cases h with
  | mk taken _ => exact taken

theorem child {child : Node} (h : nd.Drawn T) (hc : child ∈ nd.children) : child.Drawn T := by
  cases h with
  | mk _ parts => exact parts child hc

theorem ident {id : Ident} (h : id.token ∈ T) : (Node.ident id).Drawn T := .mk h (List.forall_mem_nil _)

theorem valued (h : nd.Drawn T) : nd.Valued := by
  induction h with
  | mk taken _ ih =>
    refine .mk (fun pos literal value heq => ?_) ih
    rw [heq] at taken
    exact taken.2

end Node.Drawn

/-- The pairs of a hash literal are made of such trees. -/
def DrawnPairs (T : List Token) (pairs : List (Expr × Expr)) : Prop :=
  ∀ pair ∈ pairs, (Node.expr pair.1).Drawn T ∧ (Node.expr pair.2).Drawn T

theorem Parse.le_of_integer {literal : String} {value : Nat} (h : integer? literal = some value) :
    value ≤ maxInteger := by
  unfold integer? at h
  split at h
  · dsimp only at h
    split at h
    · cases h
      assumption
    · cases h
  · cases h

open Monkey.Parser

theorem Parser.cur_mem {p : Parser} (h : p.cur.kind ≠ .eof) : p.cur ∈ p.ahead := by
  cases hp : p.ahead with
  | nil => exact absurd (cur_of_ahead_nil hp) h
  | cons t ts => rw [cur_of_ahead hp]; exact List.mem_cons_self

theorem Parser.Moves.subset {p q : Parser} (h : p.Moves q) : q.ahead ⊆ p.ahead := by
  obtain ⟨ts, hts, -⟩ := h.tokens
  rw [hts]
  exact List.subset_append_right _ _

namespace Parse

/-- Where the tokens ahead are among some, a result of the rule has a property, and the tokens behind the rule are among
them too. -/
def Draws (T : List Token) {α : Type} (R : α → Prop) (x : Parse α) : Prop :=
  ∀ p, p.ahead ⊆ T → (x p).Holds (fun a q => q.ahead ⊆ T ∧ R a) (fun q => q.ahead ⊆ T) True

/-- The same of a rule whose result does not matter. -/
abbrev Keeps (T : List Token) {α : Type} (x : Parse α) : Prop := Draws T (fun _ => True) x

variable {T : List Token}

section

variable {α β : Type} {R : α → Prop} {S : β → Prop} {x : Parse α}

theorem Draws.bind {f : α → Parse β} (hx : Draws T R x) (hf : ∀ a, R a → Draws T S (f a)) : Draws T S (x >>= f) :=
  fun p hp => holds_then (hx p hp) fun a q ha => hf a ha.2 q ha.1

theorem Keeps.then {f : α → Parse β} (hx : Keeps T x) (hf : ∀ a, Draws T S (f a)) : Draws T S (x >>= f) :=
  Draws.bind hx fun a _ => hf a

theorem draws_pure {a : α} (h : R a) : Draws T R (pure a) := fun _ hp => ⟨hp, h⟩

theorem draws_outOfBudget : Draws T R outOfBudget := fun _ _ => trivial

theorem draws_refuse (d : Diagnostic) : Draws T R (refuse d) := fun _ hp => hp

theorem draws_ite {c : Prop} [Decidable c] {y : Parse α} (hx : Draws T R x) (hy : Draws T R y) :
    Draws T R (if c then x else y) := by
  split
  · exact hx
  · exact hy

theorem Draws.traced {rule : Rule} (hx : Draws T R x) : Draws T R (traced rule x) := fun _ hp =>
  holds_traced (hx _ hp) (fun _ _ h => h) fun _ h => h

theorem Draws.attempt (hx : Draws T R x) : Draws T (fun a? => ∀ a ∈ a?, R a) (attempt x) := by
  intro p hp
  have h := hx p hp
  unfold Parse.attempt
  cases hrun : x p with
  | done a q =>
    rw [hrun] at h
    exact ⟨h.1, fun b hb => by cases hb; exact h.2⟩
  | malformed q =>
    rw [hrun] at h
    exact ⟨h, fun b hb => by cases hb⟩
  | exhausted => trivial

theorem keeps_look (f : Parser → α) : Keeps T (look f) := fun _ hp => ⟨hp, trivial⟩

theorem keeps_cur : Keeps T cur := keeps_look _

theorem keeps_peek : Keeps T peek := keeps_look _

theorem keeps_peekIs (kind : Kind) : Keeps T (peekIs kind) := keeps_look _

theorem keeps_advance : Keeps T advance := fun p hp => ⟨List.Subset.trans (moves_advance p).subset hp, trivial⟩

theorem keeps_resume (depth : Int) : Keeps T (resume depth) := fun p hp =>
  ⟨List.Subset.trans (Law.resumeWithin (R := Moves) p.ahead.length p depth).subset hp, trivial⟩

theorem keeps_expect (kind : Kind) : Keeps T (expect kind) := fun p hp => by
  unfold expect
  split
  · exact keeps_advance p hp
  · exact hp

theorem keeps_skipSemicolon : Keeps T skipSemicolon :=
  (keeps_peekIs _).then fun _ => draws_ite keeps_advance (draws_pure trivial)

/-- A name is read on its token. -/
theorem token_mem {p : Parser} (hp : p.ahead ⊆ T) (hkind : p.peek.kind = .ident) :
    (Ident.token ⟨p.peek.pos, p.peek.literal⟩) ∈ T := by
  have hmem := (moves_advance p).subset (cur_mem (p := p.advance) (by rw [cur_advance, hkind]; decide))
  rw [Ident.token, ← hkind]
  exact hp hmem

theorem draws_param : Draws T (fun id => id.token ∈ T) (do expect .ident; name) := fun p hp =>
  holds_expect (fun _ => hp) fun hkind => ⟨List.Subset.trans (moves_advance p).subset hp, token_mem hp hkind⟩

theorem draws_name {f : Ident → Parse β} (hf : ∀ id, id.token ∈ T → Draws T S (f id)) :
    Draws T S (expect .ident >>= fun _ => name >>= f) := fun p hp =>
  holds_expect (fun _ => hp) fun hkind => hf _ (token_mem hp hkind) _ (List.Subset.trans (moves_advance p).subset hp)

/-! ## Lists -/

theorem draws_moreItems (hx : Draws T R x) : ∀ n, Draws T (fun as => ∀ a ∈ as, R a) (moreItems x n)
  | 0 => draws_outOfBudget
  | n + 1 => (keeps_peekIs _).then fun _ => draws_ite
    (keeps_advance.then fun _ => hx.bind fun _ ha => (draws_moreItems hx n).bind fun _ has =>
      draws_pure (List.forall_mem_cons.2 ⟨ha, has⟩))
    (draws_pure (List.forall_mem_nil _))

theorem draws_items (hx : Draws T R x) (close : Kind) (n : Nat) :
    Draws T (fun as => ∀ a ∈ as, R a) (items x close n) :=
  (keeps_peekIs _).then fun _ => draws_ite
    (keeps_advance.then fun _ => draws_pure (List.forall_mem_nil _))
    (hx.bind fun _ ha => (draws_moreItems hx n).bind fun _ has => (keeps_expect _).then fun _ =>
      draws_pure (List.forall_mem_cons.2 ⟨ha, has⟩))

theorem draws_params (n : Nat) : Draws T (fun ids => ∀ id ∈ ids, id.token ∈ T) (params n) :=
  draws_items draws_param _ n

end

/-! ## Statements and blocks -/

section

variable {stmt : Parse Stmt} (hs : Draws T (fun s => (Node.stmt s).Drawn T) stmt)
include hs

theorem draws_blockStatements : ∀ n, Draws T (fun ss => ∀ s ∈ ss, (Node.stmt s).Drawn T) (blockStatements stmt n)
  | 0 => draws_outOfBudget
  | n + 1 => by
    refine keeps_cur.then fun token => ?_
    split
    · exact draws_pure (List.forall_mem_nil _)
    · exact draws_refuse _
    · refine (keeps_look _).then fun depth => hs.attempt.bind fun s? hs? => ?_
      cases s? with
      | some s =>
        exact keeps_advance.then fun _ => (draws_blockStatements n).bind fun _ hrest =>
          draws_pure (List.forall_mem_cons.2 ⟨hs? s rfl, hrest⟩)
      | none =>
        exact (keeps_resume _).then fun _ => keeps_cur.then fun _ => draws_ite (draws_pure (List.forall_mem_nil _))
          (keeps_advance.then fun _ => draws_blockStatements n)

theorem draws_block (n : Nat) : Draws T (fun b => (Node.block b).Drawn T) (block stmt n) :=
  keeps_cur.then fun _ => keeps_advance.then fun _ => (draws_blockStatements hs n).bind fun _ hss =>
    draws_pure (.mk trivial (List.forall_mem_map.2 hss))

theorem draws_programStatements : ∀ n, Draws T (fun ss => ∀ s ∈ ss, (Node.stmt s).Drawn T) (programStatements stmt n)
  | 0 => draws_outOfBudget
  | n + 1 => by
    refine keeps_cur.then fun token => draws_ite (draws_pure (List.forall_mem_nil _)) ?_
    refine (keeps_look _).then fun depth => hs.attempt.bind fun s? hs? => ?_
    cases s? with
    | some s =>
      exact keeps_advance.then fun _ => (draws_programStatements n).bind fun _ hrest =>
        draws_pure (List.forall_mem_cons.2 ⟨hs? s rfl, hrest⟩)
    | none => exact (keeps_resume _).then fun _ => keeps_advance.then fun _ => draws_programStatements n

end

/-! ## The rules over a rule for expressions -/

section

variable {expr : Precedence → Parse Expr}
variable (he : ∀ precedence, Draws T (fun e => (Node.expr e).Drawn T) (expr precedence))
include he

theorem draws_statementWith : Draws T (fun s => (Node.stmt s).Drawn T) (statementWith expr) := by
  have hpure {s : Stmt} (hvalue : ∀ child ∈ (Node.stmt s).children, child.Drawn T) :
      Draws T (fun s => (Node.stmt s).Drawn T) (skipSemicolon >>= fun _ => pure s) :=
    keeps_skipSemicolon.then fun _ => draws_pure (.mk trivial hvalue)
  refine Draws.traced (keeps_cur.then fun token => ?_)
  split
  · refine keeps_cur.then fun _ => draws_name fun id hid => ?_
    refine (keeps_expect _).then fun _ => keeps_advance.then fun _ => ?_
    exact (he _).bind fun e h => hpure (by simpa [Node.children] using ⟨.ident hid, h⟩)
  · refine keeps_cur.then fun _ => keeps_peek.then fun token => ?_
    split
    · exact hpure nofun
    · exact hpure nofun
    · exact hpure nofun
    · exact keeps_advance.then fun _ => (he _).bind fun e h => hpure (by simpa [Node.children] using h)
  · exact keeps_cur.then fun _ => (he _).bind fun e h => hpure (by simpa [Node.children] using h)

theorem draws_cond (n : Nat) : Draws T (fun e => (Node.expr e).Drawn T) (Parse.cond expr n) := by
  have hblock := draws_block (draws_statementWith he) n
  refine keeps_cur.then fun _ => (keeps_expect _).then fun _ => keeps_advance.then fun _ => (he _).bind fun c hc => ?_
  refine (keeps_expect _).then fun _ => (keeps_expect _).then fun _ => hblock.bind fun b hb => ?_
  refine (keeps_peekIs _).then fun _ => draws_ite ?_ ?_
  · refine keeps_advance.then fun _ => (keeps_expect _).then fun _ => hblock.bind fun a ha => ?_
    exact draws_pure (.mk trivial (by simpa [Node.children] using ⟨hc, hb, ha⟩))
  · exact draws_pure (.mk trivial (by simpa [Node.children] using ⟨hc, hb⟩))

theorem draws_fn (n : Nat) : Draws T (fun e => (Node.expr e).Drawn T) (fn expr n) := by
  refine keeps_cur.then fun _ => (keeps_expect _).then fun _ => (draws_params n).bind fun ids hids => ?_
  refine (keeps_expect _).then fun _ => (draws_block (draws_statementWith he) n).bind fun b hb => ?_
  refine draws_pure (.mk trivial fun child hc => ?_)
  rcases List.mem_append.1 hc with hc | hc
  · obtain ⟨id, hid, rfl⟩ := List.mem_map.1 hc
    exact .ident (hids id hid)
  · rw [List.mem_singleton.1 hc]
    exact hb

theorem draws_expressions (close : Kind) (n : Nat) :
    Draws T (fun es => ∀ e ∈ es, (Node.expr e).Drawn T) (expressions expr close n) :=
  draws_items (keeps_advance.then fun _ => he _) close n

theorem draws_hashPairs : ∀ n, Draws T (DrawnPairs T) (hashPairs expr n)
  | 0 => draws_outOfBudget
  | n + 1 => by
    refine (keeps_peekIs _).then fun _ => draws_ite (draws_pure (List.forall_mem_nil _)) ?_
    refine keeps_advance.then fun _ => (he _).bind fun key hkey => (keeps_expect _).then fun _ => ?_
    refine keeps_advance.then fun _ => (he _).bind fun value hvalue => ?_
    have hrest : Draws T (DrawnPairs T) (hashPairs expr n >>= fun rest => pure ((key, value) :: rest)) :=
      (draws_hashPairs n).bind fun _ hpairs => draws_pure (List.forall_mem_cons.2 ⟨⟨hkey, hvalue⟩, hpairs⟩)
    exact (keeps_peekIs _).then fun _ => draws_ite ((keeps_expect _).then fun _ => hrest) hrest

theorem draws_grouped : Draws T (fun e => (Node.expr e).Drawn T) (grouped expr) :=
  keeps_advance.then fun _ => (he _).bind fun _ h => (keeps_expect _).then fun _ => draws_pure h

theorem draws_operand (n : Nat) : Draws T (fun e => (Node.expr e).Drawn T) (operand expr n) := by
  have hunary : ∀ op, Draws T (fun e => (Node.expr e).Drawn T) (unary expr op) := fun op =>
    Draws.traced (keeps_cur.then fun _ => keeps_advance.then fun _ => (he _).bind fun e h =>
      draws_pure (.mk trivial (by simpa [Node.children] using h)))
  intro p hp
  have hcur {kind : Kind} (hkind : p.cur.kind = kind) (hne : kind ≠ .eof) :
      ⟨kind, p.cur.literal, p.cur.pos⟩ ∈ T := hkind ▸ hp (cur_mem (hkind ▸ hne))
  rw [operand, cur_bind]
  generalize hkind : p.cur.kind = kind
  split
  · exact draws_pure (.ident (hcur hkind (by decide))) p hp
  · rw [integer, cur_bind]
    cases hvalue : integer? p.cur.literal with
    | some value => exact draws_pure (.mk ⟨hcur hkind (by decide), hvalue⟩ (List.forall_mem_nil _)) p hp
    | none => exact draws_refuse _ p hp
  · exact draws_pure (.mk (hcur hkind (by decide)) (List.forall_mem_nil _)) p hp
  · exact draws_pure (.mk trivial (List.forall_mem_nil _)) p hp
  · exact draws_pure (.mk trivial (List.forall_mem_nil _)) p hp
  · exact hunary _ p hp
  · exact hunary _ p hp
  · exact draws_grouped he p hp
  · exact draws_cond he n p hp
  · exact draws_fn he n p hp
  · exact (keeps_cur.then fun _ => (draws_expressions he _ n).bind fun es hes =>
      draws_pure (.mk trivial (List.forall_mem_map.2 hes))) p hp
  · refine (keeps_cur.then fun _ => (draws_hashPairs he n).bind fun pairs hpairs =>
      (keeps_expect _).then fun _ => ?_) p hp
    refine draws_pure (.mk trivial fun child hc => ?_)
    obtain ⟨pair, hpair, hc⟩ := List.mem_flatMap.1 hc
    have hboth := hpairs pair hpair
    rcases List.mem_cons.1 hc with rfl | hc
    · exact hboth.1
    · rw [List.mem_singleton.1 hc]
      exact hboth.2
  · exact draws_refuse _ p hp

theorem draws_extend (n : Nat) {left : Expr} (hleft : (Node.expr left).Drawn T) :
    Draws T (fun e => (Node.expr e).Drawn T) (extend expr n left) := by
  refine keeps_cur.then fun token => ?_
  dsimp only
  split
  · refine keeps_cur.then fun _ => (draws_expressions he _ n).bind fun args hargs => draws_pure (.mk trivial ?_)
    exact List.forall_mem_cons.2 ⟨hleft, List.forall_mem_map.2 hargs⟩
  · refine keeps_cur.then fun _ => keeps_advance.then fun _ => (he _).bind fun i hi => (keeps_expect _).then fun _ => ?_
    exact draws_pure (.mk trivial (by simpa [Node.children] using ⟨hleft, hi⟩))
  · split
    · refine Draws.traced (keeps_cur.then fun _ => keeps_advance.then fun _ => (he _).bind fun right hright => ?_)
      exact draws_pure (.mk trivial (by simpa [Node.children] using ⟨hleft, hright⟩))
    · exact draws_pure hleft

theorem draws_climb (precedence : Precedence) : ∀ (n : Nat) {left : Expr}, (Node.expr left).Drawn T →
    Draws T (fun e => (Node.expr e).Drawn T) (climb expr precedence n left)
  | 0, _, _ => draws_outOfBudget
  | n + 1, _, hleft => keeps_peek.then fun _ => draws_ite
    (keeps_advance.then fun _ => (draws_extend he n hleft).bind fun _ h => draws_climb precedence n h)
    (draws_pure hleft)

end

theorem draws_expression : ∀ n precedence, Draws T (fun e => (Node.expr e).Drawn T) (expression n precedence)
  | 0, _ => draws_outOfBudget
  | n + 1, precedence => by
    have he := draws_expression n
    exact Draws.traced ((draws_operand he n).bind fun left hleft => draws_climb he precedence n hleft)

end Parse

/-- **The leaves of a tree are taken from the tokens of its text**, also where statements are dropped. -/
theorem Parsed.drawn (s : TokenStream) : (Node.program (Parsed.ofStream s).program).Drawn s.ahead := by
  obtain ⟨statements, q, hrun, -, hs⟩ := Parsed.ofStream_eq s
  have hdrawn := (Parse.draws_programStatements (Parse.draws_statementWith (Parse.draws_expression _)) _
    (.ofStream s) (List.Subset.refl s.ahead)).of_done hrun
  rw [hs]
  exact .mk trivial (List.forall_mem_map.2 hdrawn.2)

/-- **The parser makes no number that its literal does not say**, not even where it drops statements. -/
theorem Parsed.valued (s : TokenStream) : (Node.program (Parsed.ofStream s).program).Valued := (drawn s).valued

end Monkey
