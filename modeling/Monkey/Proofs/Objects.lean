import Monkey.Proofs.Frame
/-!
# What an evaluation does to the objects there are

No rule changes an array or a hash.  A value of an evaluation is a part of a value that was there before, or it has no
identity, or it was made in the evaluation and has an identity from its world's supply.  Any property that goes with
these three (`Value.Hereditary`) holds of all values after the evaluation if it holds of those before it.  With the
scopes from `Footprint`, this is the frame law: what an evaluation has changed is its own scope, in the names that its
node binds.
-/
namespace Monkey

namespace Value

/-- What a value is made of, at any depth; it is itself a part. -/
inductive HasPart : Value → Value → Prop
  | self (v : Value) : HasPart v v
  | held {v u p : Value} (hu : u ∈ v.held) (hp : HasPart u p) : HasPart v p

/-- A property of the values without an identity, of what is held by a value that has it, and of what is made under a
later number from values that have it. -/
structure Hereditary (since : Identity) (Q : Value → Prop) : Prop where
  plain : ∀ v : Value, v.identity? = none → Q v
  held : ∀ v u : Value, Q v → u ∈ v.held → Q u
  made : ∀ (v : Value) (id : Identity), v.identity? = some id → since ≤ id → (∀ u ∈ v.held, Q u) → Q v

end Value

/-- The value in an event: the result of a node, or what is bound to a name. -/
def Event.value? : Event → Option Value
  | leave _ _ v | bind _ _ v => some v
  | _ => none

theorem Store.exists_of_get? {st : Store} {s : ScopeId} {name : String} {v : Value} (h : st.get? s name = some v) :
    ∃ t : ScopeId, (name, v) ∈ st.bindings t := by
  obtain ⟨t, -, ht⟩ := List.exists_of_findSome?_eq_some h
  obtain ⟨l₁, l₂, heq, -⟩ := List.lookup_eq_some_iff.1 ht
  exact ⟨t, by rw [heq]; simp⟩

theorem Store.mem_bindings_set {st : Store} {s t : ScopeId} {name name' : String} {v u : Value}
    (h : (name', u) ∈ (st.set s name v).bindings t) : (name', u) = (name, v) ∨ (name', u) ∈ st.bindings t := by
  unfold bindings set at h
  unfold bindings
  rw [Array.getElem?_modify] at h
  by_cases hs : s = t
  · rw [if_pos hs] at h
    cases hscope : st.scopes[t]? with
    | none => simp [hscope] at h
    | some scope =>
      simp only [hscope, Option.map_some] at h
      exact Dict.mem_insert h
  · rw [if_neg hs] at h
    exact .inr h

/-- Every bound value has the property, and the supply of identities is as late as that. -/
structure World.All (since : Identity) (Q : Value → Prop) (w : World) : Prop where
  since : since ≤ w.fresh
  bound : ∀ (t : Nat) (name : String) (v : Value), (name, v) ∈ w.store.bindings t → Q v

theorem World.All.push {since : Identity} {Q : Value → Prop} {w : World} (hw : w.All since Q)
    (outer : Option ScopeId) : World.All since Q { w with store := w.store.push outer } :=
  ⟨hw.since, fun t name v hv => hw.bound t name v (by rwa [Store.bindings_push] at hv)⟩

namespace Eval

/-- `P` holds of a list of results, or `Q` of the value with which it has failed. -/
def Yields {α : Type} (P : α → Prop) (Q : Value → Prop) : Except Value α → Prop
  | .ok a => P a
  | .error v => Q v

variable {since : Identity} {Q : Value → Prop}

/-- The evaluation keeps the property of the bound values, and `R` holds of its result. -/
def Keeps {α : Type} (since : Identity) (Q : Value → Prop) (R : α → Prop) (x : Eval α) : Prop :=
  ∀ w, w.All since Q → x.Gives w fun _ a w' => w'.All since Q ∧ R a

section

variable {α β : Type} {R : α → Prop} {T : β → Prop} {x : Eval α}

theorem Keeps.bind {f : α → Eval β} (hx : Keeps since Q R x) (hf : ∀ a, R a → Keeps since Q T (f a)) :
    Keeps since Q T (x >>= f) := fun w hw =>
  (hx w hw).bind fun _ a w' ⟨hw', ha⟩ => hf a ha w' hw'

theorem keeps_pure {a : α} (h : R a) : Keeps since Q R (pure a) := fun _ hw => gives_pure ⟨hw, h⟩

theorem keeps_ite {c : Prop} [Decidable c] {y : Eval α} (hx : Keeps since Q R x) (hy : Keeps since Q R y) :
    Keeps since Q R (if c then x else y) := by
  split
  · exact hx
  · exact hy

theorem keeps_emit (e : Event) : Keeps since Q (fun _ => True) (emit e) := fun _ hw =>
  gives_emit ⟨⟨hw.since, hw.bound⟩, trivial⟩

theorem keeps_lookup (s : ScopeId) (name : String) : Keeps since Q (fun v? => ∀ v ∈ v?, Q v) (lookup s name) :=
  fun w hw => by
    refine gives_lookup ⟨hw, fun v hv => ?_⟩
    obtain ⟨t, ht⟩ := Store.exists_of_get? hv
    exact hw.bound t name v ht

theorem keeps_bindName (s : ScopeId) (name : String) {v : Value} (hv : Q v) :
    Keeps since Q (fun _ => True) (bindName s name v) := fun w hw => by
  refine gives_bindName ⟨⟨hw.since, fun t name' u hu => ?_⟩, trivial⟩
  rcases Store.mem_bindings_set hu with heq | hold
  · cases heq
    exact hv
  · exact hw.bound t name' u hold

theorem keeps_openScope_bind {f : ScopeId → Eval α} (outer : Option ScopeId) (hf : ∀ t, Keeps since Q R (f t)) :
    Keeps since Q R (openScope outer >>= f) := fun _ hw =>
  gives_openScope_bind (hf _ _ (hw.push outer))

theorem keeps_printAll : ∀ vs : List Value, Keeps since Q (fun _ => True) (Builtin.printAll vs)
  | [] => keeps_pure trivial
  | _ :: vs => (keeps_emit _).bind fun _ _ => keeps_printAll vs

end

section

variable (hQ : Value.Hereditary since Q)
include hQ

theorem keeps_made {make : Identity → Value} (hid : ∀ id, (make id).identity? = some id)
    (hheld : ∀ id, ∀ u ∈ (make id).held, Q u) : Keeps since Q Q (identity >>= fun id => pure (make id)) := fun w hw =>
  gives_made ⟨⟨Nat.le_succ_of_le hw.since, hw.bound⟩, hQ.made _ w.fresh (hid _) hw.since (hheld _)⟩

theorem keeps_fault (f : Fault) : Keeps since Q Q (fault f) :=
  keeps_made hQ (fun _ => rfl) fun _ _ hu => nomatch hu

theorem keeps_answers {given : List Value} (hgiven : ∀ v ∈ given, Q v) {x : Eval Value} (h : Answers given x) :
    Keeps since Q Q x := by
  cases h with
  | plain hv => exact keeps_pure (hQ.plain _ hv)
  | part hu hv => exact keeps_pure (hQ.held _ _ (hgiven _ hu) hv)
  | array hvs =>
    refine keeps_made hQ (fun _ => rfl) fun _ v hv => ?_
    rcases hvs v hv with hv | ⟨u, hu, hv⟩
    · exact hgiven v hv
    · exact hQ.held u v (hgiven u hu) hv
  | fault f => exact keeps_fault hQ f

/-! ## Calls -/

theorem keeps_callBuiltin (f : Builtin) {args : List Value} (hargs : ∀ v ∈ args, Q v) :
    Keeps since Q Q (f.call args) := by
  rcases f.call_cases args with h | h
  · rw [h]
    exact (keeps_printAll args).bind fun _ _ => keeps_pure (hQ.plain _ rfl)
  · exact keeps_answers hQ hargs h

theorem keeps_bindParams (s : ScopeId) : ∀ (params : List Ident) (args : List Value), (∀ v ∈ args, Q v) →
    Keeps since Q (fun _ => True) (bindParams s params args)
  | [], _, _ => keeps_pure trivial
  | p :: params, args, hargs => by
    -- a missing argument is null
    have hv : Q (args.head?.getD .null) := by
      cases args with
      | nil => exact hQ.plain _ rfl
      | cons v rest => exact hargs v List.mem_cons_self
    exact (keeps_bindName s p.name hv).bind fun _ _ =>
      keeps_bindParams s params _ fun v h => hargs v (List.mem_of_mem_tail h)

theorem keeps_named (s : ScopeId) (name : String) : Keeps since Q Q (named s name) := by
  refine (keeps_lookup s name).bind fun v? hv? => ?_
  split
  · exact keeps_pure (hv? _ rfl)
  · split
    · exact keeps_pure (hQ.plain _ rfl)
    · exact keeps_fault hQ _

end

section

variable {ev : Below} (hQ : Value.Hereditary since Q) (hev : ∀ nd s, Keeps since Q Q (ev nd s))
include hQ hev

theorem keeps_apply {callee : Value} {args : List Value} (hargs : ∀ v ∈ args, Q v) :
    Keeps since Q Q (apply ev callee args) := by
  cases callee with
  | builtin f => exact keeps_callBuiltin hQ f hargs
  | fn id params body scope =>
    rw [apply_fn]
    refine keeps_openScope_bind _ fun t => (keeps_bindParams hQ t params args hargs).bind fun _ _ =>
      (hev _ t).bind fun v hv => keeps_pure ?_
    rcases v.unwrap_cases with h | h
    · rwa [h]
    · exact hQ.held _ _ hv h
  | _ => exact keeps_fault hQ _

/-! ## Expressions -/

omit hQ in
theorem keeps_expressions (s : ScopeId) : ∀ es : List Expr,
    Keeps since Q (Yields (fun vs => ∀ v ∈ vs, Q v) Q) (expressions ev s es) := by
  intro es
  induction es with
  | nil => exact keeps_pure (List.forall_mem_nil _)
  | cons e es ih =>
    refine (hev _ s).bind fun v hv => keeps_ite (keeps_pure hv) ?_
    refine ih.bind fun r hr => ?_
    cases r with
    | error u => exact keeps_pure hr
    | ok us =>
      refine keeps_pure fun u hu => ?_
      rcases List.mem_cons.1 hu with rfl | hu
      · exact hv
      · exact hr u hu

theorem keeps_pairs (s : ScopeId) : ∀ (entries : List (Expr × Expr)) (done : List (Key × Value)),
    (∀ kv ∈ done, Q kv.2) → Keeps since Q (Yields (fun kvs => ∀ kv ∈ kvs, Q kv.2) Q) (pairs ev s done entries)
  | [], done, hdone => keeps_pure hdone
  | (key, value) :: entries, done, hdone => by
    refine (hev _ s).bind fun k hk => keeps_ite (keeps_pure hk) ?_
    split
    · exact (keeps_fault hQ _).bind fun v hv => keeps_pure hv
    · refine (hev _ s).bind fun v hv => keeps_ite (keeps_pure hv) ?_
      refine keeps_pairs s entries _ fun kv hkv => ?_
      rcases Dict.mem_insert hkv with rfl | hkv
      · exact hv
      · exact hdone kv hkv

theorem keeps_finish (s : ScopeId) (e : Expr) {vs : List Value} (hvs : ∀ v ∈ vs, Q v) :
    Keeps since Q Q (finish ev s e vs) := by
  have h : Finishes ev s e vs (finish ev s e vs) := finishes_finish e vs
  generalize finish ev s e vs = x at h ⊢
  cases h with
  | named => exact keeps_named hQ s _
  | answer h => exact keeps_answers hQ hvs h
  | function => exact keeps_made hQ (fun _ => rfl) fun _ _ hu => nomatch hu
  | branch => exact hev _ s
  | call _ heq =>
    subst heq
    exact keeps_apply hQ hev fun v hv => hvs v (List.mem_cons_of_mem _ hv)

theorem keeps_expr (s : ScopeId) (e : Expr) : Keeps since Q Q (expr ev s e) := by
  by_cases he : ∃ pos entries, e = .hash pos entries
  · obtain ⟨pos, entries, rfl⟩ := he
    refine (keeps_pairs hQ hev s entries [] fun _ h => nomatch h).bind fun r hr => ?_
    cases r with
    | error v => exact keeps_pure hr
    | ok kvs =>
      refine keeps_made hQ (fun _ => rfl) fun _ u hu => ?_
      obtain ⟨kv, hkv, rfl⟩ := List.mem_map.1 hu
      exact hr kv hkv
  · rw [expr_eq_finish fun pos entries h => he ⟨pos, entries, h⟩]
    refine (keeps_expressions hev s e.operands).bind fun r hr => ?_
    cases r with
    | error v => exact keeps_pure hr
    | ok vs => exact keeps_finish hQ hev s e hr

/-! ## Statements -/

omit hQ in
theorem keeps_statements (s : ScopeId) : ∀ (ss : List Stmt) (last : Value), Q last →
    Keeps since Q Q (statements ev s last ss)
  | [], _, hlast => keeps_pure hlast
  | _ :: ss, _, _ => (hev _ s).bind fun v hv => keeps_ite (keeps_pure hv) (keeps_statements s ss v hv)

theorem keeps_stmt (s : ScopeId) : ∀ st : Stmt, Keeps since Q Q (stmt ev s st) := by
  intro st
  cases st with
  | expr _ _ => exact hev _ s
  | bind _ name _ =>
    refine (hev _ s).bind fun v hv => keeps_ite (keeps_pure hv) ?_
    exact (keeps_bindName s name.name hv).bind fun _ _ => keeps_pure (hQ.plain _ rfl)
  | ret _ value =>
    cases value with
    | none => exact keeps_made hQ (fun _ => rfl) fun _ => List.forall_mem_singleton.2 (hQ.plain _ rfl)
    | some value =>
      refine (hev _ s).bind fun v hv => keeps_ite (keeps_pure hv) ?_
      exact keeps_made hQ (fun _ => rfl) fun _ => List.forall_mem_singleton.2 hv

theorem keeps_node (s : ScopeId) (nd : Node) : Keeps since Q Q (node ev s nd) := by
  cases nd with
  | program p =>
    refine (keeps_statements hev s p.statements .null (hQ.plain _ rfl)).bind fun v hv => keeps_pure ?_
    rcases v.unwrap_cases with h | h
    · rwa [h]
    · exact hQ.held _ _ hv h
  | block b => exact keeps_statements hev s b.statements .null (hQ.plain _ rfl)
  | stmt st => exact keeps_stmt hQ hev s st
  | expr e => exact keeps_expr hQ hev s e

end

/-- **Every value of an evaluation has a property that the bound values have.** -/
theorem keeps_evaluate (hQ : Value.Hereditary since Q) : ∀ (n : Nat) (nd : Node) (s : ScopeId),
    Keeps since Q Q (evaluate n nd s)
  | 0, _, _ => fun _ _ => gives_overflow
  | n + 1, nd, s => (keeps_emit _).bind fun _ _ => (keeps_node hQ (keeps_evaluate hQ n) s nd).bind fun _ hv =>
      (keeps_emit _).bind fun _ _ => keeps_pure hv

end Eval

/-! ## The frame law -/

/-- A value is a part of a bound value. -/
def World.Has (w : World) (u : Value) : Prop :=
  ∃ (t : Nat) (name : String) (v : Value), (name, v) ∈ w.store.bindings t ∧ v.HasPart u

/-- Whatever of the value has an identity from before `since` is one of these. -/
def Value.Known (since : Identity) (There : Value → Prop) (v : Value) : Prop :=
  ∀ (u : Value) (id : Identity), v.HasPart u → u.identity? = some id → id < since → There u

theorem Value.held_of_identity? {v : Value} (h : v.identity? = none) : v.held = [] := by
  cases v <;> simp_all [identity?, held]

theorem Value.hereditary_known (since : Identity) (There : Value → Prop) :
    Value.Hereditary since (Value.Known since There) where
  plain v hv u id hu hid _ := by
    cases hu with
    | self => simp [hv] at hid
    | held hu _ => simp [Value.held_of_identity? hv] at hu
  held v u hv hu p id hp := hv p id (.held hu hp)
  made v id hid hle hheld u id' hu hid' hlt := by
    cases hu with
    | self =>
      rw [hid, Option.some.injEq] at hid'
      exact absurd hlt (Nat.not_lt.2 (hid' ▸ hle))
    | held hu hp => exact hheld _ hu _ id' hp hid' hlt

theorem World.all_known {w : World} {There : Value → Prop} (h : ∀ u, w.Has u → There u) :
    w.All w.fresh (Value.Known w.fresh There) :=
  ⟨Nat.le_refl _, fun t name v hv u _ hu _ _ => h u ⟨t, name, v, hv, hu⟩⟩

/-- What was known before is all that is there of it afterwards, in the bound values and in the result. -/
theorem Eval.Keeps.known {x : Eval Value} {w w' : World} {v : Value} {There : Value → Prop}
    (hx : Keeps w.fresh (Value.Known w.fresh There) (Value.Known w.fresh There) x) (h : ∀ u, w.Has u → There u)
    (hv : x w = .value v w') (u : Value) (id : Identity) (hu : w'.Has u ∨ v.HasPart u) (hid : u.identity? = some id)
    (hlt : id < w.fresh) : There u := by
  obtain ⟨es, -, hall, hresult⟩ := hx w (World.all_known h) v w' hv
  rcases hu with ⟨t, name, v', hbound, hpart⟩ | hpart
  · exact hall.bound t name v' hbound u id hpart hid hlt
  · exact hresult u id hpart hid hlt

namespace Eval

/-- **The frame law.**  An evaluation of a node in a scope leaves every other scope as it was.  Its own scope keeps its
place, its names in their order, and the value of each name that no `let` of the node binds.  Of the objects with an
identity from before, all that remain have the contents they had.  A call leaves every scope as it was. -/
theorem frame_law (n : Nat) :
    (∀ (nd : Node) (s : Nat) (w w' : World) (v : Value), s < w.store.size → evaluate n nd s w = .value v w' →
      (∀ t : Nat, t < w.store.size → t ≠ s → w'.store.scopes[t]? = w.store.scopes[t]?) ∧
      w'.store.enclosing s = w.store.enclosing s ∧
      (w.store.bindings s).map (·.1) <+: (w'.store.bindings s).map (·.1) ∧
      (w'.store.bindings s).filter (fun b => b.1 ∉ nd.lets) = (w.store.bindings s).filter (fun b => b.1 ∉ nd.lets) ∧
      ∀ (u : Value) (id : Identity), w'.Has u ∨ v.HasPart u → u.identity? = some id → id < w.fresh → w.Has u) ∧
    ∀ (callee : Value) (args : List Value) (w w' : World) (v : Value), apply (evaluate n) callee args w = .value v w' →
      (∀ t : Nat, t < w.store.size → w'.store.scopes[t]? = w.store.scopes[t]?) ∧
      ∀ (u : Value) (id : Identity), w'.Has u ∨ v.HasPart u → u.identity? = some id → id < w.fresh →
        w.Has u ∨ ∃ arg ∈ args, arg.HasPart u := by
  constructor
  · intro nd s w w' v hs hv
    obtain ⟨es, -, hes⟩ := framed_evaluate n nd s w hs v w' hv
    have hbindings : w'.store.bindings s = Event.replay s es (w.store.bindings s) :=
      hes.bindings s (Nat.lt_of_lt_of_le hs hes.grows)
    refine ⟨fun t ht hne => ?_, hes.enclosing s hs, ?_, ?_, ?_⟩
    · refine hes.scope_eq ht fun e he heq => hne ?_
      rw [he.1, Option.some.injEq] at heq
      exact heq.symm
    · rw [hbindings]
      exact Event.keys_replay s es _
    · rw [hbindings]
      exact Event.filter_replay _ fun _ _ he => hes.bind_mem hs he
    · exact (keeps_evaluate (Value.hereditary_known _ _) n nd s).known (fun _ h => h) hv
  · intro callee args w w' v hv
    constructor
    · intro t ht
      obtain ⟨es, -, hes⟩ := framed_apply (framed_evaluate n) callee args w (Nat.zero_le _) v w' hv
      exact hes.scope_eq ht fun _ h => h.elim
    · refine (keeps_apply (Value.hereditary_known _ _) (keeps_evaluate (Value.hereditary_known _ _) n)
        fun arg harg => ?_).known (fun _ => .inl) hv
      exact fun u _ hu _ _ => .inr ⟨arg, harg, hu⟩

/-- A closure called in a branch binds the name `a` in a scope of its own: the array `a` around it stays as it is, and
the branch adds `b` alone. -/
theorem frame_law_closure :
    ∃ (w w' : World) (v : Value),
      0 < w.store.size ∧
      evaluate 20 (.program (parse "if (true) \x7b let b = f(2) \x7d").program) 0 w = .value v w' ∧
      (w'.store.bindings 0).map (·.1) = ["a", "f", "b"] ∧
      (w'.store.bindings 0).filter (fun b => b.1 ∉ ["b"]) = (w.store.bindings 0).filter (fun b => b.1 ∉ ["b"]) ∧
      (∀ t : Nat, t < w.store.size → t ≠ 0 → w'.store.scopes[t]? = w.store.scopes[t]?) ∧
      ∀ (u : Value) (id : Identity), w'.Has u ∨ v.HasPart u → u.identity? = some id → id < w.fresh → w.Has u := by
  have hruns : ∃ w : World, 0 < w.store.size ∧
      ((evaluate 20 (.program (parse "if (true) \x7b let b = f(2) \x7d").program) 0).run w).1.isSome = true ∧
      (((evaluate 20 (.program (parse "if (true) \x7b let b = f(2) \x7d").program) 0).run w).2.store.bindings 0).map
        (·.1) = ["a", "f", "b"] :=
    ⟨((evaluate 20 (.program (parse "let a = [1]; let f = fn(x) \x7b let a = push(a, x) \x7d").program) 0).run
      Session.start.world).2, by decide +kernel⟩
  have hlets : (Node.program (parse "if (true) \x7b let b = f(2) \x7d").program).lets = ["b"] := by decide +kernel
  obtain ⟨w, hsize, hsome, hnames⟩ := hruns
  obtain ⟨v, hv⟩ := exists_value_of_run hsome
  obtain ⟨hothers, -, -, hown, hobjects⟩ := (frame_law 20).1
    (.program (parse "if (true) \x7b let b = f(2) \x7d").program) 0 { w with log := [] } _ v hsize hv
  rw [hlets] at hown
  exact ⟨{ w with log := [] }, _, v, hsize, hv, hnames, hown, hothers, hobjects⟩

end Eval

end Monkey
