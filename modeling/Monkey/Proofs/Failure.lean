import Monkey.Proofs.Frame
/-!
# Runtime errors end an evaluation

A runtime error is a value, and nothing but the rules keeps it from being stored, compared or dropped.  They all hand
it on: behind the first node that is left with an error, an evaluation only leaves the nodes that it is in, each with
this same error (`Event.EndIn`).  Nothing is entered, printed or bound any more.
-/
namespace Monkey

namespace Event

/-! ## Events from the first error on -/

/-- A node is left with an error. -/
def fails : Event → Bool
  | leave _ _ v => v.isError
  | _ => false

/-- A node is left with this value. -/
def Hands (v : Value) (e : Event) : Prop := ∃ nd s, e = .leave nd s v

/-- From the first error on, nodes are left with the value `v` and nothing else happens. -/
def EndIn (es : List Event) (v : Value) : Prop := ∀ e ∈ es.dropWhile fun e => !e.fails, e.Hands v

variable {es es' : List Event} {v : Value}

theorem endIn_nil (v : Value) : EndIn [] v := fun _ he => nomatch he

theorem EndIn.clean (h : EndIn es v) (hv : v.isError = false) : ∀ e ∈ es, e.fails = false := by
  intro e he
  rw [← List.takeWhile_append_dropWhile (p := fun e => !e.fails) (l := es), List.mem_append] at he
  rcases he with he | he
  · simpa using List.all_eq_true.1 List.all_takeWhile e he
  · obtain ⟨nd, s, rfl⟩ := h e he
    exact hv

theorem endIn_append (hes : ∀ e ∈ es, e.fails = false) : EndIn (es ++ es') v ↔ EndIn es' v := by
  unfold EndIn
  rw [List.dropWhile_append_of_pos fun e he => by simp [hes e he]]

theorem endIn_of_clean (hes : ∀ e ∈ es, e.fails = false) (v : Value) : EndIn es v := by
  rw [← List.append_nil es, endIn_append hes]
  exact endIn_nil v

theorem EndIn.leave (h : EndIn es v) (nd : Node) (s : ScopeId) : EndIn (es ++ [.leave nd s v]) v := by
  intro e he
  rw [List.dropWhile_append] at he
  split at he
  · have hmem := (List.dropWhile_suffix _).mem he
    exact ⟨nd, s, List.mem_singleton.1 hmem⟩
  · rcases List.mem_append.1 he with he | he
    · exact h e he
    · exact ⟨nd, s, List.mem_singleton.1 he⟩

/-- Whatever comes behind an error is a node left with it. -/
theorem EndIn.behind {pre post : List Event} {nd : Node} {s : ScopeId} {u : Value}
    (h : EndIn (pre ++ .leave nd s u :: post) v) (hu : u.isError = true) : v = u ∧ ∀ e ∈ post, e.Hands u := by
  have hstop : (Event.leave nd s u :: post).dropWhile (fun e => !e.fails) = .leave nd s u :: post :=
    List.dropWhile_cons_of_neg (by simp [fails, hu])
  have hmem : ∀ e ∈ Event.leave nd s u :: post, e.Hands v := by
    intro e he
    apply h
    rw [List.dropWhile_append]
    split
    · rwa [hstop]
    · exact List.mem_append_right _ he
  obtain ⟨nd', s', heq⟩ := hmem _ List.mem_cons_self
  cases heq
  exact ⟨rfl, fun e he => hmem e (List.mem_cons_of_mem _ he)⟩

/-- The events of something with a result: from the first error on they hand on the value that the result is, and there
is no error if it is none. -/
def Close (es : List Event) : Option Value → Prop
  | none => ∀ e ∈ es, e.fails = false
  | some v => EndIn es v

theorem close_of_clean (hes : ∀ e ∈ es, e.fails = false) : ∀ v? : Option Value, Close es v?
  | none => hes
  | some v => endIn_of_clean hes v

theorem Close.clean {v? : Option Value} (h : Close es v?) (hv : ∀ v ∈ v?, v.isError = false) :
    ∀ e ∈ es, e.fails = false := by
  cases v? with
  | none => exact h
  | some v => exact EndIn.clean h (hv v rfl)

theorem Close.prepend {v? : Option Value} (hes : ∀ e ∈ es, e.fails = false) (h : Close es' v?) :
    Close (es ++ es') v? := by
  cases v? with
  | none => exact fun e he => (List.mem_append.1 he).elim (hes e) (h e)
  | some v => exact (endIn_append hes).2 h

end Event

theorem Value.isSignal_of_isError {v : Value} (h : v.isError = true) : v.isSignal = true := by
  cases v <;> first | rfl | cases h

namespace Eval

/-- The value that a list of results has failed with. -/
def failure? {α : Type} : Except Value α → Option Value
  | .ok _ => none
  | .error v => some v

/-- The evaluation hands an error on to its result, as far as the result is a value. -/
def Hands {α : Type} (out : α → Option Value) (x : Eval α) : Prop :=
  ∀ w, x.Gives w fun es a _ => Event.Close es (out a)

section

variable {α β : Type} {out : α → Option Value} {out' : β → Option Value} {x : Eval α}

theorem Hands.of_silent (hx : x.Silent) : Hands out x := fun w => (hx w).imp fun es _ _ ⟨hes, _⟩ => by
  subst hes
  exact Event.close_of_clean (by simp) _

theorem hands_pure (a : α) : Hands out (pure a) := .of_silent (silent_pure a)

/-- What follows a result is done for one that is no error; an error is handed on. -/
theorem Hands.bind {f : α → Eval β} (hx : Hands out x)
    (hstop : ∀ a v, out a = some v → v.isError = true → ∃ b, f a = pure b ∧ out' b = some v)
    (hf : ∀ a, Hands out' (f a)) : Hands out' (x >>= f) := fun w => by
  refine (hx w).bind fun es a w' hes => ?_
  by_cases hfail : ∃ v, out a = some v ∧ v.isError = true
  · obtain ⟨v, hv, herror⟩ := hfail
    obtain ⟨b, hb, hout⟩ := hstop a v hv herror
    rw [hb]
    refine gives_pure ?_
    rw [hv] at hes
    rw [hout, List.append_nil]
    exact hes
  · have hclean : ∀ e ∈ es, e.fails = false := hes.clean fun v hv => by
      by_cases herror : v.isError = true
      · exact absurd ⟨v, hv, herror⟩ hfail
      · simpa using herror
    exact (hf a w').imp fun es' b w'' h => h.prepend hclean

/-- Without a value there is nothing to hand on. -/
theorem Hands.then {f : α → Eval β} (hx : Hands (fun _ => none) x) (hf : ∀ a, Hands out' (f a)) :
    Hands out' (x >>= f) :=
  hx.bind (fun _ _ h => nomatch h) hf

/-- A value that is an error stops what follows it. -/
theorem Hands.unless {x : Eval Value} {stops : Value → Bool} {give : Value → β} {f : Value → Eval β}
    (hx : Hands some x) (hstops : ∀ v, v.isError = true → stops v = true) (hgive : ∀ v, out' (give v) = some v)
    (hf : ∀ v, Hands out' (f v)) : Hands out' (x >>= fun v => if stops v then pure (give v) else f v) := by
  refine hx.bind (fun v u hv hu => ⟨give v, ?_, ?_⟩) fun v => ?_
  · cases hv
    rw [if_pos (hstops v hu)]
  · cases hv
    exact hgive v
  · split
    · exact hands_pure _
    · exact hf v

theorem hands_emit {e : Event} (he : e.fails = false) : Hands (fun _ => none) (emit e) := fun _ =>
  gives_emit fun e' he' => by rwa [List.mem_singleton.1 he']

theorem hands_bindName (s : ScopeId) (name : String) (v : Value) : Hands (fun _ => none) (bindName s name v) := fun _ =>
  gives_bindName fun e he => by
    rw [List.mem_singleton.1 he]
    rfl

/-! ## Calls -/

theorem hands_printAll : ∀ vs : List Value, Hands (fun _ => none) (Builtin.printAll vs)
  | [] => hands_pure _
  | _ :: vs => (hands_emit rfl).then fun _ => hands_printAll vs

theorem hands_callBuiltin (f : Builtin) (args : List Value) : Hands some (f.call args) := by
  rcases f.call_cases args with h | h
  · rw [h]
    exact (hands_printAll args).then fun _ => hands_pure _
  · exact .of_silent (silent_answers h)

theorem hands_bindParams (s : ScopeId) : ∀ (params : List Ident) (args : List Value),
    Hands (fun _ => none) (bindParams s params args)
  | [], _ => hands_pure _
  | p :: params, _ => (hands_bindName s p.name _).then fun _ => hands_bindParams s params _

/-- An error is no wrapped value, so the end of a call does not change it. -/
theorem hands_unwrap {x : Eval Value} (hx : Hands some x) : Hands some (x >>= fun v => pure v.unwrap) := by
  refine hx.bind (fun v u hv hu => ⟨v.unwrap, rfl, ?_⟩) fun v => hands_pure _
  cases hv
  cases v <;> first | rfl | cases hu

end

section

variable {ev : Below} (hev : ∀ nd s, Hands some (ev nd s))
include hev

theorem hands_apply (callee : Value) (args : List Value) : Hands some (apply ev callee args) := by
  cases callee with
  | builtin f => exact hands_callBuiltin f args
  | fn id params body scope =>
    rw [apply_fn]
    exact fun w => gives_openScope_bind <|
      (hands_bindParams _ params args).then (fun _ => hands_unwrap (hev (.block body) _)) _
  | _ => exact .of_silent (silent_made _)

/-! ## Expressions -/

theorem hands_expressions (s : ScopeId) : ∀ es : List Expr, Hands failure? (expressions ev s es) := by
  intro es
  induction es with
  | nil => exact hands_pure _
  | cons e es ih =>
    refine (hev (.expr e) s).unless (fun _ h => h) (fun _ => rfl) fun v => ?_
    refine ih.bind (fun r u hr hu => ?_) fun r => ?_
    · cases r with
      | ok vs => cases hr
      | error v => exact ⟨.error v, rfl, hr⟩
    · cases r <;> exact hands_pure _

theorem hands_pairs (s : ScopeId) : ∀ (entries : List (Expr × Expr)) (done : List (Key × Value)),
    Hands failure? (pairs ev s done entries)
  | [], _ => hands_pure _
  | (key, value) :: entries, _ => by
    refine (hev (.expr key) s).unless (fun _ h => h) (fun _ => rfl) fun k => ?_
    split
    · refine (Hands.of_silent (silent_made _)).bind (fun v u hv hu => ⟨.error v, rfl, hv⟩) fun v => hands_pure _
    · exact (hev (.expr value) s).unless (fun _ h => h) (fun _ => rfl) fun v => hands_pairs s entries _

theorem hands_finish (s : ScopeId) (e : Expr) (vs : List Value) : Hands some (finish ev s e vs) := by
  have h : Finishes ev s e vs (finish ev s e vs) := finishes_finish e vs
  generalize finish ev s e vs = x at h ⊢
  cases h with
  | named => exact .of_silent (silent_named s _)
  | answer h => exact .of_silent (silent_answers h)
  | function => exact .of_silent (silent_made _)
  | branch => exact hev _ s
  | call => exact hands_apply hev _ _

theorem hands_expr (s : ScopeId) (e : Expr) : Hands some (expr ev s e) := by
  by_cases he : ∃ pos entries, e = .hash pos entries
  · obtain ⟨pos, entries, rfl⟩ := he
    refine (hands_pairs hev s entries []).bind (fun r u hr hu => ?_) fun r => ?_
    · cases r with
      | ok kvs => cases hr
      | error v => exact ⟨v, rfl, hr⟩
    · cases r with
      | ok kvs => exact .of_silent (silent_made _)
      | error v => exact hands_pure _
  · rw [expr_eq_finish fun pos entries h => he ⟨pos, entries, h⟩]
    refine (hands_expressions hev s e.operands).bind (fun r u hr hu => ?_) fun r => ?_
    · cases r with
      | ok vs => cases hr
      | error v => exact ⟨v, rfl, hr⟩
    · cases r with
      | ok vs => exact hands_finish hev s e vs
      | error v => exact hands_pure _

/-! ## Statements -/

theorem hands_statements (s : ScopeId) : ∀ (ss : List Stmt) (last : Value), Hands some (statements ev s last ss)
  | [], _ => hands_pure _
  | st :: ss, _ =>
    (hev (.stmt st) s).unless (fun _ => Value.isSignal_of_isError) (fun _ => rfl) fun v => hands_statements s ss v

theorem hands_stmt (s : ScopeId) : ∀ st : Stmt, Hands some (stmt ev s st) := by
  intro st
  cases st with
  | expr _ value => exact hev (.expr value) s
  | bind _ name value =>
    refine (hev (.expr value) s).unless (fun _ => Value.isSignal_of_isError) (fun _ => rfl) fun v => ?_
    exact (hands_bindName s name.name v).then fun _ => hands_pure _
  | ret _ value =>
    cases value with
    | none => exact .of_silent (silent_made _)
    | some value =>
      refine (hev (.expr value) s).unless (fun _ => Value.isSignal_of_isError) (fun _ => rfl) fun _ => ?_
      exact .of_silent (silent_made _)

theorem hands_node (s : ScopeId) (nd : Node) : Hands some (node ev s nd) := by
  cases nd with
  | program p => exact hands_unwrap (hands_statements hev s p.statements .null)
  | block b => exact hands_statements hev s b.statements .null
  | stmt st => exact hands_stmt hev s st
  | expr e => exact hands_expr hev s e

end

/-- **An evaluation hands on the first error in it.** -/
theorem hands_evaluate : ∀ (n : Nat) (nd : Node) (s : ScopeId), Hands some (evaluate n nd s)
  | 0, _, _ => fun _ => gives_overflow
  | n + 1, nd, s => by
    refine (hands_emit rfl).then fun _ w => ?_
    refine (hands_node (hands_evaluate n) s nd w).bind fun es v w' hes => ?_
    exact (gives_emit (D := fun es' _ _ => Event.Close (es ++ es') (some v)) (hes.leave nd s)).bind
      fun es' _ _ h => gives_pure (by simpa using h)

/-- **Runtime errors are absorbing.**  If some node is left with an error, the rest of the evaluation is to leave the
nodes that are still entered, each with this error, and it is the result: no node is entered, no line printed and no
name bound any more.  All scopes hold what they held when the error came. -/
theorem errors_absorb {n : Nat} {nd nd' : Node} {s t : Nat} {w w' : World} {v u : Value} {pre post : List Event}
    (hrun : (evaluate n nd s).run w = (some v, w')) (hevents : w'.events = pre ++ .leave nd' t u :: post)
    (hu : u.isError = true) :
    v = u ∧ (∀ e ∈ post, ∃ nd'' t', e = .leave nd'' t' u) ∧
      (s < w.store.size → ∀ r : Nat, r < w'.store.size →
        w'.store.bindings r = Event.replay r pre (w.store.bindings r)) := by
  have hends : Event.EndIn w'.events v := (hands_evaluate n nd s _).of_run hrun
  rw [hevents] at hends
  obtain ⟨hv, hpost⟩ := hends.behind hu
  refine ⟨hv, hpost, fun hs r hr => ?_⟩
  have hframe : Footprint (Event.Own s nd.lets) w'.events { w with log := [] } w' :=
    Gives.of_run (D := fun es _ w' => Footprint (Event.Own s nd.lets) es { w with log := [] } w')
      (framed_evaluate n nd s _ hs) hrun
  rw [hframe.bindings r hr, hevents, Event.replay_append]
  refine Event.replay_eq_self _ fun e he name b heq => ?_
  rcases List.mem_cons.1 he with rfl | he
  · cases heq
  · obtain ⟨nd'', t', rfl⟩ := hpost e he
    cases heq

/-- An element that fails inside a call: the next one prints nothing. -/
theorem errors_absorb_element :
    ∃ (w' : World) (v u : Value) (nd : Node) (t : Nat) (pre post : List Event),
      (evaluate 30 (.program (parse "let f = fn(x) \x7b [puts(1), x + true, puts(2)] \x7d; f(3); 4").program) 0).run
        Session.start.world = (some v, w') ∧
      w'.events = pre ++ .leave nd t u :: post ∧ u.isError = true ∧ w'.output false = "1\n" ∧
      v = u ∧ (∀ e ∈ post, ∃ nd' t', e = .leave nd' t' u) ∧
      ∀ r : Nat, r < w'.store.size →
        w'.store.bindings r = Event.replay r pre (Session.start.world.store.bindings r) := by
  have hfacts : ∃ r : Option Value × World, r = (evaluate 30 (.program
        (parse "let f = fn(x) \x7b [puts(1), x + true, puts(2)] \x7d; f(3); 4").program) 0).run Session.start.world ∧
      r.1.isSome = true ∧ r.2.events.any Event.fails = true ∧ r.2.output false = "1\n" := ⟨_, rfl, by decide +kernel⟩
  obtain ⟨⟨v?, w'⟩, hrun, hsome, hfails, houtput⟩ := hfacts
  obtain ⟨v, rfl⟩ := Option.isSome_iff_exists.1 hsome
  obtain ⟨e, he, hfail⟩ := List.any_eq_true.1 hfails
  obtain ⟨pre, post, hevents⟩ := List.append_of_mem he
  cases e with
  | leave nd t u =>
    obtain ⟨hresult, hpost, hbindings⟩ := errors_absorb hrun.symm hevents hfail
    exact ⟨w', v, u, nd, t, pre, post, hrun.symm, hevents, hfail, houtput, hresult, hpost, hbindings (by decide)⟩
  | _ => cases hfail

end Eval

end Monkey
