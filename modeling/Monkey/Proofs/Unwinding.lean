import Mathlib.Data.List.Chain
import Monkey.Proofs.Frame
/-!
# The way of a returned value

What a `return` gives leaves the nodes around it one by one.  Which event comes next after a node has been left with a
returned value depends on the kind of the node alone (`Event.Follows`): a statement hands it to its block; a block to
the `if` that it is a branch of, or to the call whose body it is, which takes the wrapping off; and an expression to its
statement, unless it is an operand, and then the evaluation of its parent goes on.  Every evaluation keeps this law
(`Eval.threads_evaluate`).  Read along the events, it says where any returned value ends up.

A scope that has been left for an older one is never used again (`Event.Unwinds`), since a call opens a scope of its
own.
-/
namespace Monkey

theorem Value.isSignal_cases (v : Value) : v.isSignal = true ∨ v.isSignal = false ∧ ∀ id u, v ≠ .ret id u := by
  cases v <;> simp [isSignal]

namespace Event

/-- Where an event stands in events with one more at the end. -/
theorem split_concat {es pre post : List Event} {last e : Event} (h : es ++ [last] = pre ++ e :: post) :
    (es = pre ∧ e = last ∧ post = []) ∨ ∃ post₁, post = post₁ ++ [last] ∧ es = pre ++ e :: post₁ := by
  rcases List.eq_nil_or_concat post with rfl | ⟨post₁, e', rfl⟩
  · obtain ⟨hpre, hlast⟩ := List.append_inj' h rfl
    exact .inl ⟨hpre, (List.singleton_inj.1 hlast).symm, rfl⟩
  · rw [List.concat_eq_append, ← List.cons_append, ← List.append_assoc] at h
    obtain ⟨hpre, hlast⟩ := List.append_inj' h rfl
    exact .inr ⟨post₁, by rw [List.concat_eq_append, List.singleton_inj.1 hlast], hpre⟩

/-- A statement is left. -/
def EndsStatement (e : Event) : Prop := ∃ st t v, e = .leave (.stmt st) t v

instance : DecidablePred EndsStatement
  | leave (.stmt st) t v => .isTrue ⟨st, t, v, rfl⟩
  | leave (.program _) _ _ | leave (.block _) _ _ | leave (.expr _) _ _ | enter _ _ | bind _ _ _ | print _ =>
    .isFalse fun ⟨_, _, _, h⟩ => nomatch h

/-- A node is left. -/
def IsLeave (e : Event) : Prop := ∃ nd t v, e = .leave nd t v

/-- A node of this scope is left with this value. -/
def Passes (t : ScopeId) (v : Value) (e : Event) : Prop := ∃ nd, e = .leave nd t v

/-- What may come directly after an event. -/
def Follows : Event → Event → Prop
  | leave (.stmt _) t (.ret id u), next => ∃ b, next = .leave (.block b) t (.ret id u)
  | leave (.block _) t (.ret id u), next =>
    (∃ pos condition consequence alternative,
      next = .leave (.expr (.cond pos condition consequence alternative)) t (.ret id u)) ∨
    ∃ pos callee args s, s < t ∧ next = .leave (.expr (.call pos callee args)) s u
  | leave (.expr _) t (.ret id u), next => (∃ st, next = .leave (.stmt st) t (.ret id u)) ∨ ¬ next.EndsStatement
  | _, _ => True

/-- After an event of an older scope there is none of a younger scope from before. -/
def Unwinds (es : List Event) : Prop :=
  ∀ x y z : Event, List.Sublist [x, y, z] es → ∀ s t : Nat, x.scope? = some t → y.scope? = some s → s < t →
    z.scope? ≠ some t

/-- Nothing is taken back first. -/
def Opens (es : List Event) : Prop := ∀ e ∈ es.head?, ¬ e.IsLeave

/-- Nothing need follow but after a node left with a returned value. -/
theorem follows_of_not_returned {e : Event} (h : ∀ nd t id u, e ≠ .leave nd t (.ret id u)) (next : Event) :
    Follows e next := by
  cases e with
  | leave nd t v =>
    cases v with
    | ret id u => exact absurd rfl (h nd t id u)
    | _ => cases nd <;> trivial
  | _ => trivial

theorem follows_expr (e : Expr) (t : ScopeId) (v : Value) {next : Event} (h : ¬ next.EndsStatement) :
    Follows (.leave (.expr e) t v) next := by
  cases v with
  | ret id u => exact .inr h
  | _ => trivial

theorem not_endsStatement_expr (e : Expr) (t : ScopeId) (v : Value) : ¬ (leave (.expr e) t v).EndsStatement :=
  fun ⟨_, _, _, h⟩ => nomatch h

/-- A statement that hands on the value of its expression. -/
theorem follows_stmt (e : Expr) (st : Stmt) (t : ScopeId) (v : Value) :
    Follows (.leave (.expr e) t v) (.leave (.stmt st) t v) := by
  cases v with
  | ret id u => exact .inl ⟨st, rfl⟩
  | _ => trivial

theorem follows_cond (b : Block) (pos : Pos) (condition : Expr) (consequence : Block) (alternative : Option Block)
    (t : ScopeId) (v : Value) :
    Follows (.leave (.block b) t v) (.leave (.expr (.cond pos condition consequence alternative)) t v) := by
  cases v with
  | ret id u => exact .inl ⟨pos, condition, consequence, alternative, rfl⟩
  | _ => trivial

/-- A call gives what its body does, without the wrapping. -/
theorem follows_call {s t : Nat} (h : s < t) (b : Block) (pos : Pos) (callee : Expr) (args : List Expr) (v : Value) :
    Follows (.leave (.block b) t v) (.leave (.expr (.call pos callee args)) s v.unwrap) := by
  cases v with
  | ret id u => exact .inr ⟨pos, callee, args, s, h, rfl⟩
  | _ => trivial

theorem Opens.append {es es' : List Event} (h : Opens es) (h' : Opens es') : Opens (es ++ es') := by
  cases es with
  | nil => exact h'
  | cons e es => exact h

theorem unwinds_singleton (e : Event) : Unwinds [e] := fun x y z h => by
  have := h.length_le
  simp at this

end Event

/-- Events of an evaluation in the scope `s`, from `w` to `w'`. -/
structure Thread (s : Nat) (es : List Event) (w w' : World) : Prop where
  footprint : Footprint (fun e => e.scope? = some s) es w w'
  chain : es.IsChain Event.Follows
  unwinds : Event.Unwinds es

namespace Thread

open Event

variable {s : Nat} {es es' : List Event} {w w' w'' : World}

theorem nil (hstore : w'.store = w.store) : Thread s [] w w' := by
  refine ⟨.of_store_eq hstore, .nil, ?_⟩
  exact fun _ _ _ h => nomatch h

theorem single {e : Event} (h : Footprint (fun e => e.scope? = some s) [e] w w') : Thread s [e] w w' :=
  ⟨h, .singleton e, unwinds_singleton e⟩

/-- A node is entered or left. -/
theorem mark {e : Event} (hs : s < w.store.size) (hscope : e.scope? = some s) (hbind : ∀ t name v, e ≠ .bind t name v)
    (hstore : w'.store = w.store) : Thread s [e] w w' := by
  refine .single ⟨Nat.le_of_eq (by rw [hstore]), fun _ _ => by rw [hstore], fun t _ => ?_, fun e' he' t ht => .inr ?_⟩
  · rw [hstore]
    exact (Event.replay_eq_self _ fun e' he' => List.mem_singleton.1 he' ▸ hbind t).symm
  · rw [List.mem_singleton.1 he', hscope, Option.some.injEq] at ht
    rw [List.mem_singleton.1 he']
    exact ⟨ht ▸ hs, hscope⟩

/-- What happens in a scope that has just been opened. -/
theorem of_push {outer : Option ScopeId} (h : Thread w.store.size es { w with store := w.store.push outer } w') :
    Thread s es w w' :=
  ⟨(h.footprint.of_push fun _ he => he).mono fun _ => False.elim, h.chain, h.unwinds⟩

/-- The scope of an event is the thread's own or has been opened in it. -/
theorem scope_cases (h : Thread s es w w') {e : Event} (he : e ∈ es) {t : Nat} (ht : e.scope? = some t) :
    t = s ∨ (w.store.size ≤ t ∧ t < w'.store.size) := by
  rcases h.footprint.events e he t ht with hnew | ⟨-, hown⟩
  · exact .inr hnew
  · rw [ht, Option.some.injEq] at hown
    exact .inl hown

theorem append (hs : s < w.store.size) (h : Thread s es w w') (h' : Thread s es' w' w'')
    (hlink : ∀ x ∈ es.getLast?, ∀ y ∈ es'.head?, Follows x y) : Thread s (es ++ es') w w'' := by
  refine ⟨h.footprint.trans h'.footprint, h.chain.append h'.chain hlink, ?_⟩
  intro x y z hxyz r t hx hy hlt hz
  have hgrows := h.footprint.grows
  obtain ⟨l, l', hl, hsub, hsub'⟩ := List.sublist_append_iff.1 hxyz
  -- the three events stand in the first part up to some point, and behind it in the second
  match l, hl with
  | [], hl =>
    rw [List.nil_append] at hl
    exact h'.unwinds x y z (hl ▸ hsub') r t hx hy hlt hz
  | [a], hl =>
    simp only [List.singleton_append, List.cons.injEq] at hl
    obtain ⟨rfl, rfl⟩ := hl
    rcases h.scope_cases (hsub.subset (by simp)) hx, h'.scope_cases (hsub'.subset (by simp)) hy,
      h'.scope_cases (hsub'.subset (by simp)) hz with ⟨hx | hx, hy | hy, hz | hz⟩ <;> omega
  | [a, b], hl =>
    simp only [List.cons_append, List.nil_append, List.cons.injEq] at hl
    obtain ⟨rfl, rfl, rfl⟩ := hl
    rcases h.scope_cases (hsub.subset (by simp)) hx, h.scope_cases (hsub.subset (by simp)) hy,
      h'.scope_cases (hsub'.subset (by simp)) hz with ⟨hx | hx, hy | hy, hz | hz⟩ <;> omega
  | a :: b :: c :: l, hl =>
    simp only [List.cons_append, List.cons.injEq] at hl
    obtain ⟨rfl, rfl, rfl, hl⟩ := hl
    refine h.unwinds x y z (List.Sublist.trans ?_ hsub) r t hx hy hlt hz
    simp

end Thread

namespace Eval

open Event

/-- In the scope `s`, if it exists: the events of the evaluation are a thread that opens with no leave, and `P` holds of
the result and the last event. -/
def Threads {α : Type} (s : Nat) (P : α → Event → Prop) (x : Eval α) : Prop :=
  ∀ w, s < w.store.size → x.Gives w fun es a w' => Thread s es w w' ∧ Opens es ∧ ∀ e ∈ es.getLast?, P a e

/-- Any event that does not leave a statement may follow: the evaluation of a parent goes on. -/
def Loose (e : Event) : Prop := ∀ next, ¬ next.EndsStatement → Follows e next

section

variable {α β : Type} {s : Nat} {P : α → Event → Prop} {R : β → Event → Prop} {x : Eval α}

theorem Threads.imp {P' : α → Event → Prop} (hx : Threads s P x) (h : ∀ a e, P a e → P' a e) : Threads s P' x :=
  fun w hw => (hx w hw).imp fun _ a _ ⟨hthread, hopens, hlast⟩ => ⟨hthread, hopens, fun e he => h a e (hlast e he)⟩

/-- After a first part, an evaluation stops with a result, or it goes on with no matter what. -/
theorem Threads.bind {f : α → Eval β} (hx : Threads s P x)
    (hf : ∀ a, (∃ b, f a = pure b ∧ ∀ e, P a e → R b e) ∨
      Threads s R (f a) ∧ ∀ e, P a e → (∀ next, ¬ next.IsLeave → Follows e next) ∧ ∀ b, R b e) :
    Threads s R (x >>= f) := fun w hw => by
  refine (hx w hw).bind fun es a w' ⟨hthread, hopens, hlast⟩ => ?_
  rcases hf a with ⟨b, hb, hR⟩ | ⟨hfa, hnext⟩
  · rw [hb]
    refine gives_pure ?_
    rw [List.append_nil]
    exact ⟨hthread, hopens, fun e he => hR e (hlast e he)⟩
  · refine (hfa w' (Nat.lt_of_lt_of_le hw hthread.footprint.grows)).imp fun es' b w'' ⟨hthread', hopens', hlast'⟩ => ?_
    refine ⟨hthread.append hw hthread' fun e he y hy => (hnext e (hlast e he)).1 y (hopens' y hy),
      hopens.append hopens', fun e he => ?_⟩
    rw [List.getLast?_append, Option.mem_def, Option.or_eq_some_iff] at he
    rcases he with he | ⟨-, he⟩
    · exact hlast' e he
    · exact (hnext e (hlast e he)).2 b

/-- After a part that anything but a statement's end may follow. -/
theorem Threads.then {f : α → Eval β} (hx : Threads s (fun _ => Loose) x) (hR : ∀ b e, Loose e → R b e)
    (hf : ∀ a, Threads s R (f a)) : Threads s R (x >>= f) :=
  hx.bind fun a => .inr ⟨hf a, fun e he =>
    ⟨fun next hnext => he next fun ⟨_, t, v, h⟩ => hnext ⟨_, t, v, h⟩, fun b => hR b e he⟩⟩

theorem threads_ite {c : Prop} [Decidable c] {y : Eval α} (hx : Threads s P x) (hy : Threads s P y) :
    Threads s P (if c then x else y) := by
  split
  · exact hx
  · exact hy

theorem Threads.of_silent (hx : x.Silent) : Threads s P x := fun w _ => (hx w).imp fun es _ _ ⟨hes, hstore⟩ => by
  subst hes
  exact ⟨.nil hstore, fun _ h => (nomatch h), fun _ h => (nomatch h)⟩

theorem threads_pure (a : α) : Threads s P (pure a) := .of_silent (silent_pure a)

/-- An evaluation with a single event, that leaves no node: anything may follow. -/
theorem threads_single {e : Event} (he : ¬ e.IsLeave) {x : Eval Unit}
    (hframe : Framed (s + 1) (fun e => e.scope? = some s) x) (hx : ∀ w, x.Gives w fun es _ _ => es = [e]) :
    Threads s (fun _ last => ∀ next, Follows last next) x := fun w hw =>
  ((hframe w hw).and (hx w)).imp fun es _ w' ⟨h, heq⟩ => by
    subst heq
    refine ⟨.single h, ?_, ?_⟩
    · intro e' he'
      cases he'
      exact he
    · intro e' he'
      cases he'
      exact follows_of_not_returned fun nd t _ _ h => he ⟨nd, t, _, h⟩

theorem threads_print (line : String) : Threads s (fun _ last => ∀ next, Follows last next) (emit (.print line)) :=
  threads_single (fun ⟨_, _, _, h⟩ => nomatch h) (framed_emit_print line) fun _ => gives_emit rfl

theorem threads_bindName (name : String) (v : Value) :
    Threads s (fun _ last => ∀ next, Follows last next) (bindName s name v) :=
  threads_single (fun ⟨_, _, _, h⟩ => nomatch h) (framed_bindName (Nat.lt_succ_self s) rfl) fun _ => gives_bindName rfl

/-! ## Calls -/

theorem threads_printAll : ∀ vs : List Value, Threads s (fun _ => Loose) (Builtin.printAll vs) := by
  intro vs
  induction vs with
  | nil => exact threads_pure _
  | cons v vs ih => exact ((threads_print _).imp fun _ _ h next _ => h next).then (fun _ _ h => h) fun _ => ih

theorem threads_callBuiltin (f : Builtin) (args : List Value) : Threads s (fun _ => Loose) (f.call args) := by
  rcases f.call_cases args with h | h
  · rw [h]
    exact (threads_printAll args).then (fun _ _ h => h) fun _ => threads_pure _
  · exact .of_silent (silent_answers h)

theorem threads_bindParams : ∀ (params : List Ident) (args : List Value),
    Threads s (fun _ => Loose) (bindParams s params args)
  | [], _ => threads_pure _
  | p :: params, _ => ((threads_bindName p.name _).imp fun _ _ h next _ => h next).then (fun _ _ h => h) fun _ =>
    threads_bindParams params _

end

section

variable {ev : Below} {s : Nat}
  (hev : ∀ (nd : Node) (s : Nat), (∀ p, nd ≠ .program p) → Threads s (fun v e => e = .leave nd s v) (ev nd s))
include hev

theorem threads_operand (e : Expr) : Threads s (fun _ => Loose) (ev (.expr e) s) :=
  (hev (.expr e) s nofun).imp fun v _ he _ hnext => he ▸ follows_expr e s v hnext

theorem threads_apply (callee : Value) (args : List Value) :
    Threads s (fun v e => ∀ pos f es, Follows e (.leave (.expr (.call pos f es)) s v)) (apply ev callee args) := by
  cases callee with
  | builtin f =>
    exact (threads_callBuiltin f args).imp fun v _ he pos f es => he _ (not_endsStatement_expr _ s v)
  | fn id params body scope =>
    rw [apply_fn]
    intro w hw
    have hbody : ∀ t : Nat, s < t →
        Threads t (fun v e => ∀ pos f es, Follows e (.leave (.expr (.call pos f es)) s v))
          (bindParams t params args >>= fun _ => ev (.block body) t >>= fun v => pure v.unwrap) := by
      intro t ht
      refine (threads_bindParams params args).then
        (fun v _ he pos f es => he _ (not_endsStatement_expr _ s v)) fun _ => ?_
      refine (hev (.block body) t nofun).bind fun v => .inl ⟨v.unwrap, rfl, fun e he pos f es => ?_⟩
      rw [he]
      exact follows_call ht body pos f es v
    refine gives_openScope_bind ((hbody _ hw _ ?_).imp fun es v w' ⟨hthread, hrest⟩ => ⟨hthread.of_push, hrest⟩)
    exact Nat.lt_of_lt_of_eq (Nat.lt_succ_self _) (Store.size_push _ _).symm
  | _ => exact .of_silent (silent_made _)

/-! ## Expressions -/

theorem threads_expressions : ∀ es : List Expr, Threads s (fun _ => Loose) (expressions ev s es) := by
  intro es
  induction es with
  | nil => exact threads_pure _
  | cons e es ih =>
    refine (threads_operand hev e).then (fun _ _ h => h) fun v => threads_ite (threads_pure _) ?_
    refine ih.then (fun _ _ h => h) fun r => ?_
    cases r <;> exact threads_pure _

theorem threads_pairs : ∀ (entries : List (Expr × Expr)) (done : List (Key × Value)),
    Threads s (fun _ => Loose) (pairs ev s done entries)
  | [], _ => threads_pure _
  | (key, value) :: entries, _ => by
    refine (threads_operand hev key).then (fun _ _ h => h) fun k => threads_ite (threads_pure _) ?_
    split
    · exact (Threads.of_silent (silent_made _)).then (fun _ _ h => h) fun _ => threads_pure _
    · exact (threads_operand hev value).then (fun _ _ h => h) fun _ =>
        threads_ite (threads_pure _) (threads_pairs entries _)

theorem threads_finish (e : Expr) (vs : List Value) :
    Threads s (fun v last => Follows last (.leave (.expr e) s v)) (finish ev s e vs) := by
  have h : Finishes ev s e vs (finish ev s e vs) := finishes_finish e vs
  generalize finish ev s e vs = x at h ⊢
  cases h with
  | named => exact .of_silent (silent_named s _)
  | answer h => exact .of_silent (silent_answers h)
  | function => exact .of_silent (silent_made _)
  | branch he =>
    subst he
    refine (hev (.block _) s nofun).imp fun v last hlast => ?_
    rw [hlast]
    exact follows_cond _ _ _ _ _ s v
  | call he =>
    subst he
    exact (threads_apply hev _ _).imp fun v last hlast => hlast _ _ _

theorem threads_expr (e : Expr) : Threads s (fun v last => Follows last (.leave (.expr e) s v)) (expr ev s e) := by
  have hparent : ∀ (v : Value) (last : Event), Loose last → Follows last (.leave (.expr e) s v) := fun v _ hlast =>
    hlast _ (not_endsStatement_expr e s v)
  by_cases he : ∃ pos entries, e = .hash pos entries
  · obtain ⟨pos, entries, rfl⟩ := he
    refine (threads_pairs hev entries []).then hparent fun r => ?_
    cases r with
    | ok kvs => exact .of_silent (silent_made _)
    | error v => exact threads_pure _
  · rw [expr_eq_finish fun pos entries h => he ⟨pos, entries, h⟩]
    refine (threads_expressions hev e.operands).then hparent fun r => ?_
    cases r with
    | ok vs => exact threads_finish hev e vs
    | error v => exact threads_pure _

/-! ## Statements -/

/-- If the event leaves a node with a returned value, the node is a statement of the scope, and the value is this. -/
def Returns (s : ScopeId) (v : Value) (e : Event) : Prop :=
  ∀ nd t id u, e = .leave nd t (.ret id u) → (∃ st, nd = .stmt st) ∧ t = s ∧ v = .ret id u

theorem threads_statements : ∀ (ss : List Stmt) (last : Value), Threads s (Returns s) (statements ev s last ss)
  | [], _ => threads_pure _
  | st :: ss, _ => by
    refine (hev (.stmt st) s nofun).bind fun v => ?_
    rcases v.isSignal_cases with hv | ⟨hv, hret⟩
    · refine .inl ⟨v, if_pos hv, fun e he nd t id u heq => ?_⟩
      rw [he] at heq
      cases heq
      exact ⟨⟨st, rfl⟩, rfl, rfl⟩
    · refine .inr ⟨?_, fun e he => ⟨fun next _ => ?_, fun b nd t id u heq => ?_⟩⟩
      · rw [if_neg (by simp [hv])]
        exact threads_statements ss v
      · rw [he]
        exact follows_of_not_returned (fun nd t id u heq => by cases heq; exact hret id u rfl) next
      · rw [he] at heq
        cases heq
        exact absurd rfl (hret id u)

/-- A statement that does something with the value of an expression, unless the value is a signal. -/
theorem threads_unlessSignal {e : Expr} {st : Stmt} {f : Value → Eval Value}
    (hf : ∀ v, Threads s (fun v last => Follows last (.leave (.stmt st) s v)) (f v)) :
    Threads s (fun v last => Follows last (.leave (.stmt st) s v))
      (ev (.expr e) s >>= fun v => if v.isSignal then pure v else f v) := by
  refine (hev (.expr e) s nofun).bind fun v => ?_
  rcases v.isSignal_cases with hv | ⟨hv, hret⟩
  · refine .inl ⟨v, if_pos hv, fun last hlast => ?_⟩
    rw [hlast]
    exact follows_stmt e st s v
  · have hfree : ∀ next, Follows (.leave (.expr e) s v) next :=
      follows_of_not_returned fun nd t id u heq => by cases heq; exact hret id u rfl
    refine .inr ⟨?_, fun last hlast => ⟨fun next _ => hlast ▸ hfree next, fun b => hlast ▸ hfree _⟩⟩
    rw [if_neg (by simp [hv])]
    exact hf v

theorem threads_stmt (st : Stmt) : Threads s (fun v last => Follows last (.leave (.stmt st) s v)) (stmt ev s st) := by
  cases st with
  | expr token e =>
    refine (hev (.expr e) s nofun).imp fun v last hlast => ?_
    rw [hlast]
    exact follows_stmt e _ s v
  | bind pos name e =>
    refine threads_unlessSignal hev fun v => (threads_bindName name.name v).bind fun _ => .inr ⟨threads_pure _, ?_⟩
    exact fun last hlast => ⟨fun next _ => hlast next, fun _ => hlast _⟩
  | ret pos value =>
    cases value with
    | none => exact .of_silent (silent_made _)
    | some e => exact threads_unlessSignal hev fun v => .of_silent (silent_made _)

theorem threads_node {nd : Node} (hnd : ∀ p, nd ≠ .program p) :
    Threads s (fun v last => Follows last (.leave nd s v)) (node ev s nd) := by
  cases nd with
  | program p => exact absurd rfl (hnd p)
  | block b =>
    refine (threads_statements hev b.statements .null).imp fun v last hlast => ?_
    by_cases hret : ∃ nd t id u, last = .leave nd t (.ret id u)
    · obtain ⟨nd, t, id, u, rfl⟩ := hret
      obtain ⟨⟨st, rfl⟩, rfl, rfl⟩ := hlast nd t id u rfl
      exact ⟨b, rfl⟩
    · exact follows_of_not_returned (fun nd t id u h => hret ⟨nd, t, id, u, h⟩) _
  | stmt st => exact threads_stmt hev st
  | expr e => exact threads_expr hev e

end

/-- Between entering a node and leaving it. -/
theorem threads_within (nd : Node) {s : Nat} {P : Value → Event → Prop} {x : Eval Value} (hx : Threads s P x)
    {w : World} (hw : s < w.store.size) :
    (emit (.enter nd s) >>= fun _ => x >>= fun v => emit (.leave nd s v) >>= fun _ => pure v).Gives w fun es v w' =>
      ∃ body w₁, es = .enter nd s :: (body ++ [.leave nd s v]) ∧ Thread s (.enter nd s :: body) w w₁ ∧
        w'.store = w₁.store ∧ ∀ e ∈ body.getLast?, P v e := by
  refine (gives_emit (D := fun es _ w₁ => es = [.enter nd s] ∧ w₁.store = w.store) ⟨rfl, rfl⟩).bind ?_
  intro es _ w₁ ⟨hes, hstore⟩
  have henter : Thread s es w w₁ := hes ▸ .mark hw rfl nofun hstore
  refine (hx w₁ (hstore ▸ hw)).bind fun body v w₂ ⟨hbody, _, hlast⟩ => ?_
  refine (gives_emit (D := fun es' _ w' => es' = [.leave nd s v] ∧ w'.store = w₂.store) ⟨rfl, rfl⟩).bind ?_
  intro es' _ w' ⟨hes', hstore'⟩
  refine gives_pure ⟨body, w₂, by simp [hes, hes'], ?_, hstore', hlast⟩
  have hthread := henter.append hw hbody fun e he next _ => ?_
  · rwa [hes] at hthread
  · rw [hes] at he
    cases he
    trivial

/-- **Every evaluation keeps the order of events.** -/
theorem threads_evaluate : ∀ (n : Nat) (nd : Node) (s : Nat), (∀ p, nd ≠ .program p) →
    Threads s (fun v e => e = .leave nd s v) (evaluate n nd s)
  | 0, _, _, _ => fun _ _ => gives_overflow
  | n + 1, nd, s, hnd => fun w hw => by
    refine (threads_within nd (threads_node (threads_evaluate n) hnd) hw).imp ?_
    rintro _ v w' ⟨body, w₁, rfl, hbody, hstore, hlast⟩
    have hs : s < w₁.store.size := Nat.lt_of_lt_of_le hw hbody.footprint.grows
    refine ⟨hbody.append hw (.mark hs rfl nofun hstore) fun e he next hnext => ?_, ?_, ?_⟩
    · cases hnext
      rw [List.getLast?_cons, Option.mem_some_iff] at he
      cases h : body.getLast? with
      | none =>
        rw [h] at he
        subst he
        trivial
      | some last =>
        rw [h] at he
        subst he
        exact hlast _ h
    · rintro e he ⟨nd', t, u, rfl⟩
      cases he
    · intro e he
      rw [← List.cons_append, List.getLast?_concat] at he
      exact (Option.mem_some_iff.1 he).symm

/-- A program is a thread up to the event that leaves it, and gives what its last statement has returned. -/
theorem threads_program (n : Nat) (p : Program) {s : Nat} {w : World} (hw : s < w.store.size) :
    (evaluate n (.program p) s).Gives w fun es v _ => ∃ body w₁, es = body ++ [.leave (.program p) s v] ∧
      Thread s body w w₁ ∧ ∀ nd t id u, .leave nd t (.ret id u) ∈ body.getLast? → t = s ∧ v = u := by
  cases n with
  | zero => exact gives_overflow
  | succ n =>
    have hnode : Threads s (fun v e => ∀ nd t id u, e = .leave nd t (.ret id u) → t = s ∧ v = u)
        (statements (evaluate n) s .null p.statements >>= fun v => pure v.unwrap) := by
      refine (threads_statements (threads_evaluate n) p.statements .null).bind fun v => .inl ⟨_, rfl, ?_⟩
      intro e he nd t id u heq
      obtain ⟨-, rfl, rfl⟩ := he nd t id u heq
      exact ⟨rfl, rfl⟩
    refine (threads_within (.program p) hnode hw).imp ?_
    rintro _ v w' ⟨body, w₁, rfl, hthread, -, hlast⟩
    refine ⟨_, w₁, rfl, hthread, fun nd t id u hmem => ?_⟩
    rw [List.getLast?_cons, Option.mem_some_iff] at hmem
    cases h : body.getLast? with
    | none =>
      rw [h] at hmem
      cases hmem
    | some e =>
      rw [h] at hmem
      exact hlast e h nd t id u hmem

end Eval

/-! ## Where a returned value ends up -/

namespace Event

variable {t : Nat} {id : Identity} {u : Value} {post : List Event}

/-- A value is handed up to an `if` that is an operand: what follows is no end of a statement. -/
def Surfaces (t : ScopeId) (v : Value) (post : List Event) : Prop :=
  ∃ passed pos condition consequence alternative next more,
    post = passed ++ .leave (.expr (.cond pos condition consequence alternative)) t v :: next :: more ∧
      (∀ e ∈ passed, e.Passes t v) ∧ ¬ next.EndsStatement

theorem Surfaces.append {v : Value} {post' : List Event} (h : Surfaces t v post) : Surfaces t v (post ++ post') := by
  obtain ⟨passed, pos, c, k, a, next, more, rfl, hpassed, hnext⟩ := h
  exact ⟨passed, pos, c, k, a, next, more ++ post', by simp, hpassed, hnext⟩

/-- A returned value is handed up to a call in an older scope, and is what the call gives. -/
def EndsCall (t : Nat) (id : Identity) (u : Value) (post : List Event) : Prop :=
  ∃ passed pos callee args s more, post = passed ++ .leave (.expr (.call pos callee args)) s u :: more ∧
    (∀ e ∈ passed, e.Passes t (.ret id u)) ∧ s < t

/-- What becomes of a returned value: it is handed up to the last event, to a call or to an operand. -/
def Fate (t : Nat) (id : Identity) (u : Value) (post : List Event) : Prop :=
  (∀ e ∈ post, e.Passes t (.ret id u)) ∨ EndsCall t id u post ∨ Surfaces t (.ret id u) post

theorem Fate.cons {e : Event} (he : e.Passes t (.ret id u)) (h : Fate t id u post) : Fate t id u (e :: post) := by
  have hcons : ∀ passed : List Event, (∀ e' ∈ passed, e'.Passes t (.ret id u)) →
      ∀ e' ∈ e :: passed, e'.Passes t (.ret id u) := by
    intro passed h e' he'
    rcases List.mem_cons.1 he' with rfl | he'
    · exact he
    · exact h e' he'
  rcases h with
    h | ⟨passed, pos, callee, args, s, more, rfl, h, hlt⟩ | ⟨passed, pos, c, k, a, next, more, rfl, h, hnext⟩
  · exact .inl (hcons post h)
  · exact .inr (.inl ⟨e :: passed, pos, callee, args, s, more, rfl, hcons passed h, hlt⟩)
  · exact .inr (.inr ⟨e :: passed, pos, c, k, a, next, more, rfl, hcons passed h, hnext⟩)

/-- **The fate of a returned value** that leaves a statement or a block, read along the events. -/
theorem fate_of_follows : ∀ (post : List Event) (e : Event),
    ((∃ st, e = .leave (.stmt st) t (.ret id u)) ∨ ∃ b, e = .leave (.block b) t (.ret id u)) →
    (e :: post).IsChain Follows → Fate t id u post
  | [], _, _, _ => .inl fun _ h => nomatch h
  | e' :: post, _, .inl ⟨st, rfl⟩, h => by
    rw [List.isChain_cons_cons] at h
    obtain ⟨⟨b, rfl⟩, hchain⟩ := h
    exact (fate_of_follows post _ (.inr ⟨b, rfl⟩) hchain).cons ⟨_, rfl⟩
  | e' :: post, _, .inr ⟨b, rfl⟩, h => by
    rw [List.isChain_cons_cons] at h
    obtain ⟨hfollows, hchain⟩ := h
    rcases hfollows with ⟨pos, c, k, a, rfl⟩ | ⟨pos, callee, args, s, hlt, rfl⟩
    · -- the block is a branch of an `if`, which is the value of a statement, or an operand
      match post, hchain with
      | [], _ => exact .inl fun e he => ⟨_, List.mem_singleton.1 he⟩
      | next :: more, hchain =>
        rw [List.isChain_cons_cons] at hchain
        obtain ⟨⟨st, rfl⟩ | hnext, hchain⟩ := hchain
        · exact ((fate_of_follows more _ (.inl ⟨st, rfl⟩) hchain).cons ⟨_, rfl⟩).cons ⟨_, rfl⟩
        · exact .inr (.inr ⟨[], pos, c, k, a, next, more, rfl, fun _ h => (nomatch h), hnext⟩)
    · exact .inr (.inl ⟨[], pos, callee, args, s, post, rfl, fun _ h => (nomatch h), hlt⟩)

end Event

namespace Eval

open Event

/-- A returned value leaves its activation: it is handed up to the call that opened the scope, or to the end of the
program, which gives it as `v`, and nothing happens in the scope any more. -/
def LeavesActivation (p : Program) (s : Nat) (v : Value) (t : Nat) (id : Identity) (u : Value) (post : List Event) :
    Prop :=
  ∃ passed last more, post = passed ++ last :: more ∧ (∀ e ∈ passed, e.Passes t (.ret id u)) ∧
    (∀ e ∈ more, e.scope? ≠ some t) ∧
    ((∃ pos callee args r, r < t ∧ last = .leave (.expr (.call pos callee args)) r u) ∨
      (t = s ∧ last = .leave (.program p) s v ∧ v = u ∧ more = []))

/-- **A returned value leaves its activation, unless the `if` around it is an operand.** -/
theorem returned_cases (n : Nat) (p : Program) {s : Nat} {w : World} (hw : s < w.store.size) :
    (evaluate n (.program p) s).Gives w fun es v _ => ∀ (pre post : List Event) (st : Stmt) (t : Nat) (id : Identity)
      (u : Value), es = pre ++ .leave (.stmt st) t (.ret id u) :: post →
        LeavesActivation p s v t id u post ∨ Surfaces t (.ret id u) post := by
  refine (threads_program n p hw).imp ?_
  rintro _ v w' ⟨body, w₁, rfl, hthread, hlast⟩ pre post st t id u heq
  -- the event that leaves the program is the last one, and no statement's end
  rcases split_concat heq with ⟨-, he, -⟩ | ⟨post, rfl, rfl⟩
  · cases he
  rcases fate_of_follows post _ (.inl ⟨st, rfl⟩) hthread.chain.right_of_append with hpasses | hcall | hsurfaces
  · left
    obtain ⟨nd, hnd⟩ : ∃ nd, .leave nd t (.ret id u) ∈ (pre ++ .leave (.stmt st) t (.ret id u) :: post).getLast? := by
      rw [List.getLast?_append, List.getLast?_cons, Option.some_or]
      cases h : post.getLast? with
      | none => exact ⟨_, rfl⟩
      | some e =>
        obtain ⟨nd, rfl⟩ := hpasses e (List.mem_of_getLast? h)
        exact ⟨nd, rfl⟩
    obtain ⟨rfl, rfl⟩ := hlast nd t id u hnd
    exact ⟨post, _, [], rfl, hpasses, fun _ h => (nomatch h), .inr ⟨rfl, rfl, rfl, rfl⟩⟩
  · left
    obtain ⟨passed, pos, callee, args, r, more, rfl, hpassed, hlt⟩ := hcall
    refine ⟨passed, _, more ++ [.leave (.program p) s v], by simp, hpassed, fun e he => ?_,
      .inl ⟨pos, callee, args, r, hlt, rfl⟩⟩
    rcases List.mem_append.1 he with he | he
    · have hsub : List.Sublist [.leave (.stmt st) t (.ret id u), .leave (.expr (.call pos callee args)) r u, e]
          (pre ++ .leave (.stmt st) t (.ret id u) :: (passed ++ .leave (.expr (.call pos callee args)) r u :: more)) :=
        List.Sublist.trans (.cons_cons _ (List.Sublist.trans (.cons_cons _ (List.singleton_sublist.2 he))
          (List.sublist_append_right passed _))) (List.sublist_append_right pre _)
      exact hthread.unwinds _ _ e hsub r t rfl rfl hlt
    · -- the program is in an older scope than the call
      rw [List.mem_singleton.1 he]
      rcases hthread.scope_cases (e := .leave (.expr (.call pos callee args)) r u) (by simp) rfl with hr | ⟨hr, -⟩
      · rintro ⟨⟩
        omega
      · rintro ⟨⟩
        omega
  · exact .inr hsurfaces.append

end Eval

end Monkey
