import Monkey.Proofs.Objects
/-!
# The ledger of what was made

An array, a hash or a function is made once, and so are a returned value and an error.  A ledger lists all that was made
in the order of the making, so that an identity is a place in the ledger.  Evaluations add to the end of it, and what a
value is made of stands in the ledger under its identity (`Eval.adds_evaluate`): so an identity means one object through
a whole run.
-/
namespace Monkey

/-- Whatever the value is made of and has an identity, stands in the ledger under it. -/
def Value.Recorded (made : List Value) (v : Value) : Prop :=
  ∀ (u : Value) (i : Identity), v.HasPart u → u.identity? = some i → made[i]? = some u

/-- A list of all that was made: an identity is the place of what has it, and every bound value is recorded. -/
structure World.Ledger (w : World) (made : List Value) : Prop where
  length : made.length = w.fresh
  entry : ∀ (i : Identity) (v : Value), made[i]? = some v → v.identity? = some i ∧ v.Recorded made
  bound : ∀ (t : Nat) (name : String) (v : Value), (name, v) ∈ w.store.bindings t → v.Recorded made

namespace Value

variable {made made' : List Value} {u v : Value}

theorem recorded_plain (h : v.identity? = none) : v.Recorded made := fun u i hu hi => by
  cases hu with
  | self =>
    rw [h] at hi
    cases hi
  | held hu _ =>
    rw [held_of_identity? h] at hu
    cases hu

theorem Recorded.held (h : v.Recorded made) (hu : u ∈ v.held) : u.Recorded made := fun p i hp => h p i (.held hu hp)

theorem Recorded.part (h : v.Recorded made) (hu : v.HasPart u) : u.Recorded made := by
  induction hu with
  | self => exact h
  | held hu _ ih => exact ih (h.held hu)

theorem Recorded.unwrap (h : v.Recorded made) : v.unwrap.Recorded made := by
  rcases v.unwrap_cases with heq | hmem
  · rwa [heq]
  · exact h.held hmem

/-- An entry stays where it is. -/
theorem Recorded.mono (h : v.Recorded made) (hgrows : made <+: made') : v.Recorded made' := fun u i hu hi => by
  obtain ⟨more, rfl⟩ := hgrows
  have hold := h u i hu hi
  rw [List.getElem?_append_left (List.getElem?_eq_some_iff.1 hold).1]
  exact hold

/-- The new entry is recorded if it is made of what is recorded. -/
theorem recorded_made (hid : v.identity? = some made.length) (hheld : ∀ u ∈ v.held, u.Recorded made) :
    v.Recorded (made ++ [v]) := fun u i hu hi => by
  cases hu with
  | self =>
    rw [hid] at hi
    cases hi
    exact List.getElem?_concat_length
  | held hu hp => exact (hheld _ hu).mono (List.prefix_append made [v]) _ _ hp hi

end Value

namespace World.Ledger

variable {w : World} {made : List Value}

theorem relog (h : w.Ledger made) (log : List Event) : World.Ledger { w with log := log } made :=
  ⟨h.length, h.entry, h.bound⟩

theorem push (h : w.Ledger made) (outer : Option ScopeId) :
    World.Ledger { w with store := w.store.push outer } made :=
  ⟨h.length, h.entry, fun t name v hv => h.bound t name v (by rwa [Store.bindings_push] at hv)⟩

theorem bind (h : w.Ledger made) {v : Value} (hv : v.Recorded made) (s : ScopeId) (name : String) :
    World.Ledger { w with store := w.store.set s name v, log := .bind s name v :: w.log } made :=
  ⟨h.length, h.entry, fun t name' u hu => by
    rcases Store.mem_bindings_set hu with heq | hold
    · cases heq
      exact hv
    · exact h.bound t name' u hold⟩

/-- What is made becomes the last entry. -/
theorem add (h : w.Ledger made) {v : Value} (hid : v.identity? = some w.fresh)
    (hheld : ∀ u ∈ v.held, u.Recorded made) : World.Ledger { w with fresh := w.fresh + 1 } (made ++ [v]) where
  length := by rw [List.length_append, h.length]; rfl
  entry i u hu := by
    rw [← h.length] at hid
    rw [List.getElem?_append] at hu
    split at hu
    · have hold := h.entry i u hu
      exact ⟨hold.1, hold.2.mono (List.prefix_append _ _)⟩
    · obtain ⟨hlt, hget⟩ := List.getElem?_eq_some_iff.1 hu
      simp only [List.length_singleton, List.getElem_singleton] at hlt hget
      obtain rfl : i = made.length := Nat.le_antisymm (by omega) (by omega)
      rw [← hget]
      exact ⟨hid, Value.recorded_made hid hheld⟩
  bound t name u hu := (h.bound t name u hu).mono (List.prefix_append _ _)

theorem last {v : Value} (h : w.Ledger (made ++ [v])) : v.identity? = some made.length ∧ v.Recorded (made ++ [v]) :=
  h.entry made.length v List.getElem?_concat_length

end World.Ledger

namespace Eval

/-- How an evaluation ends whose world has a ledger: with a longer ledger and with a result of which `R` holds there. -/
inductive Records {α : Type} (made : List Value) (R : List Value → α → Prop) : Ending α → Prop
  | value {a : α} {w : World} {made' : List Value} (grows : made <+: made') (ledger : w.Ledger made')
      (result : R made' a) : Records made R (.value a w)
  | overflow {w : World} {made' : List Value} (grows : made <+: made') (ledger : w.Ledger made') :
      Records made R (.overflow w)

/-- The evaluation adds to the ledger, and `R` holds of its result. -/
def Adds {α : Type} (made : List Value) (R : List Value → α → Prop) (x : Eval α) : Prop :=
  ∀ w : World, w.Ledger made → Records made R (x w)

section

variable {α β : Type} {made : List Value} {R : List Value → α → Prop} {T : List Value → β → Prop} {x : Eval α}

theorem Adds.bind {f : α → Eval β} (hx : Adds made R x)
    (hf : ∀ made' a, made <+: made' → R made' a → Adds made' T (f a)) : Adds made T (x >>= f) := fun w hw => by
  show Records made T (andThen x f w)
  unfold andThen
  have hends := hx w hw
  generalize x w = ending at hends
  cases hends with
  | @value a w' made' grows ledger result =>
    have hrest := hf made' a grows result w' ledger
    show Records made T (f a w')
    generalize f a w' = ending at hrest
    cases hrest with
    | value grows' ledger' result' => exact .value (grows.trans grows') ledger' result'
    | overflow grows' ledger' => exact .overflow (grows.trans grows') ledger'
  | overflow grows ledger => exact .overflow grows ledger

theorem adds_pure {a : α} (h : R made a) : Adds made R (pure a) := fun _ hw => .value List.prefix_rfl hw h

theorem adds_ite {c : Prop} [Decidable c] {y : Eval α} (hx : Adds made R x) (hy : Adds made R y) :
    Adds made R (if c then x else y) := by
  split
  · exact hx
  · exact hy

theorem adds_emit (e : Event) : Adds made (fun _ _ => True) (emit e) := fun _ hw =>
  .value List.prefix_rfl (hw.relog _) trivial

theorem adds_lookup (s : ScopeId) (name : String) :
    Adds made (fun made v? => ∀ v ∈ v?, v.Recorded made) (lookup s name) := fun _ hw =>
  .value List.prefix_rfl hw fun v hv => by
    obtain ⟨t, ht⟩ := Store.exists_of_get? hv
    exact hw.bound t name v ht

theorem adds_bindName (s : ScopeId) (name : String) {v : Value} (hv : v.Recorded made) :
    Adds made (fun _ _ => True) (bindName s name v) := fun _ hw => .value List.prefix_rfl (hw.bind hv s name) trivial

theorem adds_openScope_bind {f : ScopeId → Eval α} (outer : Option ScopeId) (hf : ∀ t, Adds made R (f t)) :
    Adds made R (openScope outer >>= f) := fun w hw => hf w.store.next _ (hw.push outer)

theorem adds_printAll (vs : List Value) : ∀ made : List Value, Adds made (fun _ _ => True) (Builtin.printAll vs) := by
  induction vs with
  | nil => exact fun _ => adds_pure trivial
  | cons v vs ih => exact fun _ => (adds_emit _).bind fun made' _ _ _ => ih made'

theorem Adds.imp (hx : Adds made R x) {T : List Value → α → Prop}
    (h : ∀ (made' : List Value) (a : α) (w : World), w.Ledger made' → R made' a → T made' a) : Adds made T x :=
  fun w hw => by
    have hends := hx w hw
    generalize x w = ending at hends ⊢
    cases hends with
    | value grows ledger result => exact .value grows ledger (h _ _ _ ledger result)
    | overflow grows ledger => exact .overflow grows ledger

theorem Adds.value (hx : Adds made R x) {w w' : World} {a : α} (hw : w.Ledger made) (h : x w = .value a w') :
    ∃ made', made <+: made' ∧ w'.Ledger made' ∧ R made' a := by
  have hends := hx w hw
  rw [h] at hends
  cases hends with
  | value grows ledger result => exact ⟨_, grows, ledger, result⟩

/-- What holds of a result whatever the ledger. -/
theorem Adds.and {P : α → Prop} (hx : Adds made R x) (hP : ∀ w a w', x w = .value a w' → P a) :
    Adds made (fun made' a => R made' a ∧ P a) x := fun w hw => by
  have hends := hx w hw
  generalize hends' : x w = ending at hends
  cases hends with
  | value grows ledger result => exact .value grows ledger ⟨result, hP w _ _ hends'⟩
  | overflow grows ledger => exact .overflow grows ledger

/-- Something made of recorded values becomes the last entry. -/
theorem adds_made {make : Identity → Value} (hid : ∀ id, (make id).identity? = some id)
    (hheld : ∀ id, ∀ u ∈ (make id).held, u.Recorded made) :
    Adds made (fun made' v => made' = made ++ [v]) (identity >>= fun id => pure (make id)) := fun w hw =>
  .value (List.prefix_append _ _) (hw.add (hid w.fresh) (hheld w.fresh)) rfl

theorem Adds.recorded {x : Eval Value} (hx : Adds made (fun made' v => made' = made ++ [v]) x) :
    Adds made Value.Recorded x := hx.imp fun _ _ _ ledger heq => by
  subst heq
  exact ledger.last.2

end

section

variable {made : List Value}

theorem adds_fault (f : Fault) : Adds made Value.Recorded (fault f) :=
  Adds.recorded (adds_made (fun _ => rfl) fun _ => nofun)

theorem adds_array {elements : List Value} (h : ∀ v ∈ elements, v.Recorded made) :
    Adds made (fun made' v => made' = made ++ [v]) (array elements) := adds_made (fun _ => rfl) fun _ => h

theorem adds_hash {pairs : List (Key × Value)} (h : ∀ kv ∈ pairs, kv.2.Recorded made) :
    Adds made (fun made' v => made' = made ++ [v]) (hash pairs) := adds_made (fun _ => rfl) fun _ _ hu => by
  obtain ⟨kv, hkv, rfl⟩ := List.mem_map.1 hu
  exact h kv hkv

theorem adds_function (params : List Ident) (body : Block) (s : ScopeId) :
    Adds made (fun made' v => made' = made ++ [v]) (function params body s) :=
  adds_made (fun _ => rfl) fun _ => nofun

theorem adds_returned {v : Value} (h : v.Recorded made) : Adds made Value.Recorded (returned v) :=
  Adds.recorded (adds_made (fun _ => rfl) fun _ => List.forall_mem_singleton.2 h)

theorem adds_answers {given : List Value} (hgiven : ∀ v ∈ given, v.Recorded made) {x : Eval Value}
    (h : Answers given x) : Adds made Value.Recorded x := by
  cases h with
  | plain hv => exact adds_pure (Value.recorded_plain hv)
  | part hu hv => exact adds_pure ((hgiven _ hu).held hv)
  | array hvs =>
    refine (adds_array fun v hv => ?_).recorded
    rcases hvs v hv with hv | ⟨u, hu, hv⟩
    · exact hgiven v hv
    · exact (hgiven u hu).held hv
  | fault f => exact adds_fault f

/-! ## Calls -/

theorem adds_callBuiltin (f : Builtin) {args : List Value} (hargs : ∀ v ∈ args, v.Recorded made) :
    Adds made Value.Recorded (f.call args) := by
  rcases f.call_cases args with h | h
  · rw [h]
    exact (adds_printAll args made).bind fun _ _ _ _ => adds_pure (Value.recorded_plain rfl)
  · exact adds_answers hargs h

theorem adds_bindParams (s : ScopeId) (params : List Ident) : ∀ {args made : List Value},
    (∀ v ∈ args, v.Recorded made) → Adds made (fun _ _ => True) (bindParams s params args) := by
  induction params with
  | nil => exact fun _ => adds_pure trivial
  | cons p params ih =>
    intro args made hargs
    -- a missing argument is null
    have hv : (args.head?.getD .null).Recorded made := by
      cases args with
      | nil => exact Value.recorded_plain rfl
      | cons v rest => exact hargs v List.mem_cons_self
    exact (adds_bindName s p.name hv).bind fun _ _ grows _ =>
      ih fun v h => (hargs v (List.mem_of_mem_tail h)).mono grows

theorem adds_named (s : ScopeId) (name : String) : Adds made Value.Recorded (named s name) := by
  refine (adds_lookup s name).bind fun made' v? _ hv? => ?_
  split
  · exact adds_pure (hv? _ rfl)
  · split
    · exact adds_pure (Value.recorded_plain rfl)
    · exact adds_fault _

end

section

variable {ev : Below} (hev : ∀ made nd s, Adds made Value.Recorded (ev nd s))
include hev

theorem adds_apply {made : List Value} {callee : Value} {args : List Value} (hargs : ∀ v ∈ args, v.Recorded made) :
    Adds made Value.Recorded (apply ev callee args) := by
  cases callee with
  | builtin f => exact adds_callBuiltin f hargs
  | fn id params body scope =>
    rw [apply_fn]
    exact adds_openScope_bind _ fun t => (adds_bindParams t params hargs).bind fun made' _ _ _ =>
      (hev made' (.block body) t).bind fun _ v _ hv => adds_pure hv.unwrap
  | _ => exact adds_fault _

/-! ## Expressions -/

theorem adds_expressions (s : ScopeId) (es : List Expr) : ∀ made : List Value,
    Adds made (fun made' => Yields (fun vs => ∀ v ∈ vs, v.Recorded made') (Value.Recorded made'))
      (expressions ev s es) := by
  induction es with
  | nil => exact fun _ => adds_pure (List.forall_mem_nil _)
  | cons e es ih =>
    refine fun made => (hev made _ s).bind fun made' v _ hv => adds_ite (adds_pure hv) ?_
    refine (ih made').bind fun made'' r grows hr => ?_
    cases r with
    | error u => exact adds_pure hr
    | ok us => exact adds_pure (List.forall_mem_cons.2 ⟨hv.mono grows, hr⟩)

theorem adds_pairs (s : ScopeId) (entries : List (Expr × Expr)) : ∀ (done : List (Key × Value)) {made : List Value},
    (∀ kv ∈ done, kv.2.Recorded made) →
    Adds made (fun made' => Yields (fun kvs => ∀ kv ∈ kvs, kv.2.Recorded made') (Value.Recorded made'))
      (pairs ev s done entries) := by
  induction entries with
  | nil => exact fun _ _ hdone => adds_pure hdone
  | cons entry entries ih =>
    intro done made hdone
    refine (hev made _ s).bind fun made' k grows hk => adds_ite (adds_pure hk) ?_
    split
    · exact (adds_fault _).bind fun _ v _ hv => adds_pure hv
    · refine (hev made' _ s).bind fun made'' v grows' hv => adds_ite (adds_pure hv) (ih _ fun kv hkv => ?_)
      rcases Dict.mem_insert hkv with rfl | hkv
      · exact hv
      · exact (hdone kv hkv).mono (grows.trans grows')

theorem adds_finish {made : List Value} (s : ScopeId) (e : Expr) {vs : List Value} (hvs : ∀ v ∈ vs, v.Recorded made) :
    Adds made Value.Recorded (finish ev s e vs) := by
  have h : Finishes ev s e vs (finish ev s e vs) := finishes_finish e vs
  generalize finish ev s e vs = x at h ⊢
  cases h with
  | named => exact adds_named s _
  | answer h => exact adds_answers hvs h
  | function => exact (adds_function _ _ s).recorded
  | branch => exact hev made _ s
  | call _ heq =>
    subst heq
    exact adds_apply hev fun v hv => hvs v (List.mem_cons_of_mem _ hv)

theorem adds_expr {made : List Value} (s : ScopeId) (e : Expr) : Adds made Value.Recorded (expr ev s e) := by
  by_cases he : ∃ pos entries, e = .hash pos entries
  · obtain ⟨pos, entries, rfl⟩ := he
    refine (adds_pairs hev s entries [] nofun).bind fun made' r _ hr => ?_
    cases r with
    | error v => exact adds_pure hr
    | ok kvs => exact (adds_hash hr).recorded
  · rw [expr_eq_finish fun pos entries h => he ⟨pos, entries, h⟩]
    refine (adds_expressions hev s e.operands made).bind fun made' r _ hr => ?_
    cases r with
    | error v => exact adds_pure hr
    | ok vs => exact adds_finish hev s e hr

/-! ## Statements -/

theorem adds_statements (s : ScopeId) (ss : List Stmt) : ∀ {made : List Value} {last : Value}, last.Recorded made →
    Adds made Value.Recorded (statements ev s last ss) := by
  induction ss with
  | nil => exact fun hlast => adds_pure hlast
  | cons st ss ih => exact fun _ => (hev _ _ s).bind fun _ v _ hv => adds_ite (adds_pure hv) (ih hv)

theorem adds_stmt {made : List Value} (s : ScopeId) : ∀ st : Stmt, Adds made Value.Recorded (stmt ev s st) := by
  intro st
  cases st with
  | expr _ _ => exact hev made _ s
  | bind _ name _ =>
    refine (hev made _ s).bind fun _ v _ hv => adds_ite (adds_pure hv) ?_
    exact (adds_bindName s name.name hv).bind fun _ _ _ _ => adds_pure (Value.recorded_plain rfl)
  | ret _ value =>
    cases value with
    | none => exact adds_returned (Value.recorded_plain rfl)
    | some value => exact (hev made _ s).bind fun _ v _ hv => adds_ite (adds_pure hv) (adds_returned hv)

theorem adds_node {made : List Value} (s : ScopeId) (nd : Node) : Adds made Value.Recorded (node ev s nd) := by
  cases nd with
  | program p =>
    exact (adds_statements hev s p.statements (Value.recorded_plain rfl)).bind fun _ v _ hv => adds_pure hv.unwrap
  | block b => exact adds_statements hev s b.statements (Value.recorded_plain rfl)
  | stmt st => exact adds_stmt hev s st
  | expr e => exact adds_expr hev s e

end

/-- **An evaluation adds to the ledger**, and its value is recorded there. -/
theorem adds_evaluate : ∀ (n : Nat) (made : List Value) (nd : Node) (s : ScopeId),
    Adds made Value.Recorded (evaluate n nd s)
  | 0, _, _, _ => fun _ hw => .overflow List.prefix_rfl hw
  | n + 1, _, nd, s => (adds_emit _).bind fun _ _ _ _ => (adds_node (adds_evaluate n) s nd).bind fun _ _ _ hv =>
      (adds_emit _).bind fun _ _ grows _ => adds_pure (hv.mono grows)

end Eval

end Monkey
