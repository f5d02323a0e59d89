import Monkey.Proofs.Likeness
/-!
# Two runs side by side

The same node is evaluated in two worlds that are alike.  Both runs take the same steps: either both overflow, or both
give a result, the second the renamed first; and the worlds are alike again (`Eval.tracks_evaluate`).  A run beside
itself is an invariant of one run: whatever it evaluates is a node that its regime admits where it is evaluated.
-/
namespace Monkey

/-- Two endings are alike: both are results that are related, or both overflow; and the worlds are alike. -/
inductive Likeness.EndsAlike (c : Likeness) {α β : Type} (w : World) (R : World → α → β → Prop) :
    Ending α → Ending β → Prop
  | value {a : α} {b : β} {v v' : World} (older : w.Older v) (alike : c.Alike v v') (related : R v a b) :
    EndsAlike c w R (.value a v) (.value b v')
  | overflow {v v' : World} (older : w.Older v) (alike : c.Alike v v') : EndsAlike c w R (.overflow v) (.overflow v')

namespace Likeness

theorem EndsAlike.older {c : Likeness} {α β : Type} {w v : World} {R : World → α → β → Prop} {x : Ending α} {y : Ending β}
    (h : c.EndsAlike v R x y) (hold : w.Older v) : c.EndsAlike w R x y := by
  cases h with
  | value hold' halike hab => exact .value (hold.trans hold') halike hab
  | overflow hold' halike => exact .overflow (hold.trans hold') halike

variable (c : Likeness)

/-- A value that the regime allows, and the same value renamed. -/
def Same (w : World) (v v' : Value) : Prop := v' = v.rename c.along ∧ c.regime.Good w v

def SameAll (w : World) (vs vs' : List Value) : Prop :=
  vs' = vs.map (Value.rename c.along) ∧ ∀ v ∈ vs, c.regime.Good w v

def SamePairs (w : World) (kvs kvs' : List (Key × Value)) : Prop :=
  kvs' = (kvs.map fun kv => (kv.1, kv.2.rename c.along)) ∧ ∀ kv ∈ kvs, c.regime.Good w kv.2

/-- Results that are related, or values with which both evaluations have failed. -/
inductive SameResult {α : Type} (P : World → α → α → Prop) (w : World) :
    Except Value α → Except Value α → Prop
  | ok {a a' : α} (h : P w a a') : SameResult P w (.ok a) (.ok a')
  | error {v v' : Value} (h : c.Same w v v') : SameResult P w (.error v) (.error v')

variable {c} {w w' : World}

theorem Same.mono {v v' : Value} (h : c.Same w v v') (hw : w.Older w') : c.Same w' v v' :=
  ⟨h.1, h.2.mono hw⟩

theorem SameAll.mono {vs vs' : List Value} (h : c.SameAll w vs vs') (hw : w.Older w') : c.SameAll w' vs vs' :=
  ⟨h.1, fun v hv => (h.2 v hv).mono hw⟩

theorem sameAll_nil : c.SameAll w [] [] := ⟨rfl, fun _ hv => nomatch hv⟩

theorem samePairs_nil : c.SamePairs w [] [] := ⟨rfl, fun _ hkv => nomatch hkv⟩

theorem Same.cons {v v' : Value} {vs vs' : List Value} (h : c.Same w v v') (hs : c.SameAll w vs vs') :
    c.SameAll w (v :: vs) (v' :: vs') := by
  refine ⟨by rw [h.1, hs.1, List.map_cons], fun u hu => ?_⟩
  rcases List.mem_cons.1 hu with rfl | hu
  · exact h.2
  · exact hs.2 u hu

theorem same_plain {v : Value} (hv : v.identity? = none) : c.Same w v v :=
  ⟨(Value.rename_of_identity? _ hv).symm, Regime.good_plain hv⟩

theorem Same.isError {v v' : Value} (h : c.Same w v v') : v'.isError = v.isError := by
  rw [h.1, Value.isError_rename]

theorem Same.isSignal {v v' : Value} (h : c.Same w v v') : v'.isSignal = v.isSignal := by
  rw [h.1, Value.isSignal_rename]

theorem SamePairs.mono {kvs kvs' : List (Key × Value)} (h : c.SamePairs w kvs kvs') (hw : w.Older w') :
    c.SamePairs w' kvs kvs' :=
  ⟨h.1, fun kv hkv => (h.2 kv hkv).mono hw⟩

theorem SamePairs.insert {kvs kvs' : List (Key × Value)} (h : c.SamePairs w kvs kvs') {key : Key} {v v' : Value}
    (hv : c.Same w v v') : c.SamePairs w (Dict.insert key v kvs) (Dict.insert key v' kvs') := by
  refine ⟨by rw [h.1, hv.1, Dict.insert_map_snd], fun kv hkv => ?_⟩
  rcases Dict.mem_insert hkv with rfl | hkv
  · exact hv.2
  · exact h.2 kv hkv

theorem Same.unwrap {v v' : Value} (h : c.Same w v v') : c.Same w v.unwrap v'.unwrap :=
  ⟨by rw [h.1, Value.unwrap_rename], h.2.unwrap⟩

end Likeness

namespace Eval

/-- From the world `w` and any that is like it, two evaluations end alike. -/
def Tracks (c : Likeness) {α β : Type} (w : World) (R : World → α → β → Prop) (x : Eval α) (y : Eval β) : Prop :=
  ∀ w', c.Alike w w' → c.EndsAlike w R (x w) (y w')

variable {c : Likeness} {α β γ δ : Type} {w : World} {R : World → α → β → Prop}

/-! ## Steps -/

theorem Tracks.bind {T : World → γ → δ → Prop} {x : Eval α} {y : Eval β} {f : α → Eval γ} {f' : β → Eval δ}
    (hx : Tracks c w R x y) (hf : ∀ v a b, w.Older v → R v a b → Tracks c v T (f a) (f' b)) :
    Tracks c w T (x >>= f) (y >>= f') := by
  intro w' h
  have hxy := hx w' h
  show c.EndsAlike w T (andThen x f w) (andThen y f' w')
  unfold andThen
  cases hxw : x w with
  | overflow v =>
    rw [hxw] at hxy
    cases hyw : y w' with
    | value => rw [hyw] at hxy; cases hxy
    | overflow v' =>
      rw [hyw] at hxy
      cases hxy with
      | overflow hold halike => exact .overflow hold halike
  | value a v =>
    rw [hxw] at hxy
    cases hyw : y w' with
    | overflow => rw [hyw] at hxy; cases hxy
    | value b v' =>
      rw [hyw] at hxy
      cases hxy with
      | value hold halike hab =>
        exact (hf v a b hold hab v' halike).older hold

theorem tracks_pure {a : α} {b : β} (h : R w a b) : Tracks c w R (pure a) (pure b) := fun _ hw =>
  .value (.refl w) hw h

theorem tracks_overflow : Tracks c w R overflow overflow := fun _ hw => .overflow (.refl w) hw

theorem tracks_emit {e : Event} (he : c.regime.Fits w e) :
    Tracks c w (fun _ _ _ => True) (emit e) (emit (e.rename c.along)) := fun _ hw =>
  .value (.emit w e) (hw.emit he) trivial

theorem tracks_lookup {s : ScopeId} {name : String} (hs : c.regime.live w.store.size s)
    (hname : c.regime.shown name = true) :
    Tracks c w (fun v a b => b = a.map (Value.rename c.along) ∧ ∀ u ∈ a, c.regime.Good v u) (lookup s name)
      (lookup (c.along.scope s) name) := fun _ hw =>
  .value (.refl w) hw (hw.get? hs hname)

theorem tracks_bindName {s : ScopeId} {name : String} {v v' : Value} (hname : c.regime.shown name = true)
    (hv : c.Same w v v') :
    Tracks c w (fun _ _ _ => True) (bindName s name v) (bindName (c.along.scope s) name v') := by
  obtain ⟨rfl, hgood⟩ := hv
  exact fun _ hw => .value (.bind w s name v) (hw.bind hname hgood) trivial

theorem tracks_openScope_bind {scope : ScopeId} {f : ScopeId → Eval α} {f' : ScopeId → Eval β}
    (hscope : c.regime.live w.store.size scope)
    (hf : Tracks c { w with store := w.store.push (some scope) } R (f w.store.next)
      (f' (c.along.scope w.store.next))) :
    Tracks c w R (openScope (some scope) >>= f) (openScope (some (c.along.scope scope)) >>= f') := by
  intro w' hw
  have h := hf _ (hw.push hscope)
  rw [hw.next] at h
  exact h.older (.push w (some scope))

/-- Whatever has an identity is made in both worlds under the next one. -/
theorem tracks_made {make make' : Identity → Value} (hmake : ∀ id, (make id).rename c.along = make' (c.along.identity id))
    (hgood : c.regime.Good { w with fresh := w.fresh + 1 } (make w.fresh)) :
    Tracks c w c.Same (identity >>= fun id => pure (make id)) (identity >>= fun id => pure (make' id)) := by
  intro w' hw
  refine .value (.made w) hw.made ⟨?_, hgood⟩
  rw [hmake]
  exact congrArg make' (hw.fresh 0).symm

theorem tracks_made_of_held {make make' : Identity → Value}
    (hmake : ∀ id, (make id).rename c.along = make' (c.along.identity id)) (hid : ∀ id, (make id).identity? = some id)
    (htype : ∀ id, (make id).type ≠ .function) (honce : ∀ id, (make id).WrapsOnce)
    (hheld : ∀ id, ∀ u ∈ (make id).held, c.regime.Good w u) :
    Tracks c w c.Same (identity >>= fun id => pure (make id)) (identity >>= fun id => pure (make' id)) :=
  tracks_made hmake (.of_held (c.regime.allows_made w (hid _) (htype _) (honce _)) fun u hu =>
    (hheld _ u hu).mono (.made w))

theorem tracks_array {vs vs' : List Value} (h : c.SameAll w vs vs') : Tracks c w c.Same (array vs) (array vs') := by
  obtain ⟨rfl, hgood⟩ := h
  exact tracks_made_of_held (fun id => by rw [Value.rename, Value.renameAll_eq]) (fun _ => rfl) (fun _ => nofun)
    (fun _ _ _ => nofun) fun _ => hgood

theorem tracks_hash {kvs kvs' : List (Key × Value)} (h : c.SamePairs w kvs kvs') :
    Tracks c w c.Same (hash kvs) (hash kvs') := by
  obtain ⟨rfl, hgood⟩ := h
  refine tracks_made_of_held (fun id => by rw [Value.rename, Value.renamePairs_eq]) (fun _ => rfl) (fun _ => nofun)
    (fun _ _ _ => nofun) fun _ u hu => ?_
  obtain ⟨kv, hkv, rfl⟩ := List.mem_map.1 hu
  exact hgood kv hkv

theorem tracks_returned {v v' : Value} (h : c.Same w v v') (hv : v.type ≠ .returnValue) :
    Tracks c w c.Same (returned v) (returned v') := by
  obtain ⟨rfl, hgood⟩ := h
  refine tracks_made_of_held (fun _ => rfl) (fun _ => rfl) (fun _ => nofun) (fun _ id u heq => ?_) fun _ u hu => ?_
  · cases heq
    exact hv
  · rwa [List.mem_singleton.1 hu]

theorem tracks_fault (f : Fault) : Tracks c w c.Same (fault f) (fault f) :=
  tracks_made_of_held (fun _ => rfl) (fun _ => rfl) (fun _ => nofun) (fun _ _ _ => nofun) fun _ _ hu => nomatch hu

theorem tracks_function {pos : Pos} {params : List Ident} {body : Block} {s : ScopeId}
    (h : c.regime.admits w (.expr (.fn pos params body)) s) :
    Tracks c w c.Same (function params body s)
      (function (params.map (Ident.relocate c.along.place)) (body.relocate c.along.place) (c.along.scope s)) :=
  tracks_made (fun _ => rfl) (.of_held (c.regime.allows_fn h) fun _ hu => nomatch hu)

theorem tracks_ite {p : Prop} [Decidable p] {x x' : Eval α} {y y' : Eval β} (h : Tracks c w R x y)
    (h' : Tracks c w R x' y') : Tracks c w R (if p then x else x') (if p then y else y') := by
  split
  · exact h
  · exact h'

/-! ## Calls -/

theorem Answers.of_pure {given : List Value} {v : Value} (h : Answers given (pure v)) :
    v.identity? = none ∨ ∃ u ∈ given, v ∈ u.held := by
  generalize hx : (pure v : Eval Value) = x at h
  -- what is only given needs no identity, so it is told from what is made by any world
  have hrun := congrFun hx .empty
  cases h with
  | plain hv => cases hrun; exact .inl hv
  | part hu hv => cases hrun; exact .inr ⟨_, hu, hv⟩
  | array => cases hrun
  | fault => cases hrun

theorem Answers.of_array {given vs : List Value} (h : Answers given (Eval.array vs)) :
    ∀ v ∈ vs, v ∈ given ∨ ∃ u ∈ given, v ∈ u.held := by
  generalize hx : Eval.array vs = x at h
  have hrun := congrFun hx .empty
  cases h with
  | plain => cases hrun
  | part => cases hrun
  | array h => cases hrun; exact h
  | fault => cases hrun

theorem tracks_answers {given : List Value} (hgiven : ∀ v ∈ given, c.regime.Good w v) {x y : Eval Value}
    (hx : Answers given x) (h : Renamed c.along x y) : Tracks c w c.Same x y := by
  cases h with
  | pure v =>
    refine tracks_pure ⟨rfl, ?_⟩
    rcases hx.of_pure with hv | ⟨u, hu, hv⟩
    · exact Regime.good_plain hv
    · exact (hgiven u hu).held hv
  | array vs =>
    refine tracks_array ⟨rfl, fun v hv => ?_⟩
    rcases hx.of_array v hv with hv | ⟨u, hu, hv⟩
    · exact hgiven v hv
    · exact (hgiven u hu).held hv
  | fault f => exact tracks_fault f

theorem tracks_printAll : ∀ (vs : List Value) (w : World),
    Tracks c w (fun _ _ _ => True) (Builtin.printAll vs) (Builtin.printAll (vs.map (Value.rename c.along)))
  | [], _ => tracks_pure trivial
  | v :: vs, w => by
    have h : Tracks c w (fun _ _ _ => True) (emit (.print v.render)) (emit (.print (v.rename c.along).render)) := by
      rw [Value.render_rename]
      exact tracks_emit (e := .print v.render) trivial
    exact h.bind fun u _ _ _ _ => tracks_printAll vs u

theorem tracks_callBuiltin (f : Builtin) {args args' : List Value} (h : c.SameAll w args args') :
    Tracks c w c.Same (f.call args) (f.call args') := by
  obtain ⟨rfl, hgood⟩ := h
  by_cases hf : f = .puts
  · subst hf
    exact (tracks_printAll args w).bind fun _ _ _ _ _ => tracks_pure (Likeness.same_plain rfl)
  · exact tracks_answers hgood (Builtin.answers_call hf args) (Builtin.renamed_call c.along hf args)

theorem tracks_bindParams {s : ScopeId} : ∀ {params : List Ident} {args args' : List Value} {w : World},
    (∀ p ∈ params, c.regime.shown p.name = true) → c.SameAll w args args' →
    Tracks c w (fun _ _ _ => True) (bindParams s params args)
      (bindParams (c.along.scope s) (params.map (Ident.relocate c.along.place)) args')
  | [], _, _, _, _, _ => tracks_pure trivial
  | p :: params, args, args', w, hparams, h => by
    obtain ⟨rfl, hgood⟩ := h
    have hhead : c.Same w (args.head?.getD .null) ((args.map (Value.rename c.along)).head?.getD .null) := by
      rw [List.head?_map, Value.getD_rename]
      refine ⟨rfl, ?_⟩
      cases args with
      | nil => exact Regime.good_plain rfl
      | cons v rest => exact hgood v List.mem_cons_self
    refine (tracks_bindName (hparams p List.mem_cons_self) hhead).bind fun u _ _ hu _ => ?_
    refine tracks_bindParams (fun q hq => hparams q (List.mem_cons_of_mem _ hq)) ⟨by rw [List.map_tail], fun v hv => ?_⟩
    exact (hgood v (List.mem_of_mem_tail hv)).mono hu

theorem tracks_named {id : Ident} {s : ScopeId} (h : c.regime.admits w (.ident id) s) :
    Tracks c w c.Same (named s id.name) (named (c.along.scope s) id.name) := by
  refine (tracks_lookup (c.regime.admits_live h) (c.regime.admits_shown h)).bind fun u v? v?' _ ⟨heq, hgood⟩ => ?_
  subst heq
  cases v? with
  | some v => exact tracks_pure ⟨rfl, hgood v rfl⟩
  | none =>
    dsimp only
    cases Builtin.ofName? id.name with
    | some f => exact tracks_pure (Likeness.same_plain rfl)
    | none => exact tracks_fault _

/-! ## Nodes -/

/-- Nodes below that are admitted are evaluated alike. -/
def TracksBelow (c : Likeness) (ev : Below) : Prop :=
  ∀ {w : World} {nd : Node} {s : ScopeId}, c.regime.admits w nd s →
    Tracks c w c.Same (ev nd s) (ev (nd.relocate c.along.place) (c.along.scope s))

/-- The body of a function, evaluated in the scope of a call. -/
def called (ev : Below) (params : List Ident) (body : Block) (scope : ScopeId) (args : List Value) : Eval Value :=
  openScope (some scope) >>= fun t => bindParams t params args >>= fun _ => ev (.block body) t

/-- A call gives what the body gives, unwrapped. -/
theorem apply_eq_called (ev : Below) (id : Identity) (params : List Ident) (body : Block) (scope : ScopeId)
    (args : List Value) :
    apply ev (.fn id params body scope) args = called ev params body scope args >>= fun v => pure v.unwrap := by
  simp only [apply_fn, called, bind_assoc]

section

variable {ev : Below} (hev : TracksBelow c ev)
include hev

theorem tracks_called {id : Identity} {params : List Ident} {body : Block} {scope : ScopeId}
    (hfn : c.regime.allows w (.fn id params body scope)) {args args' : List Value} (hargs : c.SameAll w args args') :
    Tracks c w c.Same (called ev params body scope args)
      (called ev (params.map (Ident.relocate c.along.place)) (body.relocate c.along.place) (c.along.scope scope)
        args') := by
  refine tracks_openScope_bind (c.regime.live_of_allows hfn) ?_
  have hparams : ∀ p ∈ params, c.regime.shown p.name = true := fun p hp =>
    c.regime.admits_shown (c.regime.admits_call hfn (List.mem_append_left _ (List.mem_map_of_mem hp)))
  refine (tracks_bindParams hparams (hargs.mono (.push w _))).bind fun u _ _ hu _ => ?_
  exact hev (c.regime.admits_mono hu (c.regime.admits_call hfn (by simp)))

theorem tracks_apply {f f' : Value} {args args' : List Value} (hf : c.Same w f f') (hargs : c.SameAll w args args') :
    Tracks c w c.Same (apply ev f args) (apply ev f' args') := by
  obtain ⟨rfl, hgood⟩ := hf
  cases f with
  | builtin f => exact tracks_callBuiltin f hargs
  | fn id params body scope =>
    rw [Value.rename, apply_eq_called, apply_eq_called]
    exact (tracks_called hev (hgood _ (.self _)) hargs).bind fun _ _ _ _ hab => tracks_pure hab.unwrap
  | int | bool | str | null | array | hash | ret | error => exact tracks_fault _

/-! ### Expressions -/

theorem tracks_expressions {s : ScopeId} : ∀ {es : List Expr} {w : World}, (∀ e ∈ es, c.regime.admits w (.expr e) s) →
    Tracks c w (c.SameResult c.SameAll) (expressions ev s es)
      (expressions ev (c.along.scope s) (es.map (Expr.relocate c.along.place)))
  | [], _, _ => tracks_pure (.ok Likeness.sameAll_nil)
  | e :: es, w, hes => by
    refine (hev (hes e List.mem_cons_self)).bind fun u v v' hu hv => ?_
    rw [hv.isError]
    refine tracks_ite (tracks_pure (.error hv)) ?_
    refine (tracks_expressions fun e he => c.regime.admits_mono hu (hes e (List.mem_cons_of_mem _ he))).bind
      fun u' r r' hu' hr => ?_
    cases hr with
    | ok hvs => exact tracks_pure (.ok ((hv.mono hu').cons hvs))
    | error hv => exact tracks_pure (.error hv)

theorem tracks_pairs {s : ScopeId} : ∀ {entries : List (Expr × Expr)} {done done' : List (Key × Value)} {w : World},
    (∀ e ∈ entries, c.regime.admits w (.expr e.1) s ∧ c.regime.admits w (.expr e.2) s) → c.SamePairs w done done' →
    Tracks c w (c.SameResult c.SamePairs) (pairs ev s done entries)
      (pairs ev (c.along.scope s) done' (entries.map fun e => (e.1.relocate c.along.place, e.2.relocate c.along.place)))
  | [], _, _, _, _, hdone => tracks_pure (.ok hdone)
  | (key, value) :: entries, done, done', w, hentries, hdone => by
    have hfirst := hentries (key, value) List.mem_cons_self
    refine (hev hfirst.1).bind fun u k k' hu hk => ?_
    rw [hk.isError]
    refine tracks_ite (tracks_pure (.error hk)) ?_
    rw [hk.1, Value.key?_rename, Value.type_rename]
    cases k.key? with
    | none => exact (tracks_fault _).bind fun _ _ _ _ hv => tracks_pure (.error hv)
    | some key =>
      refine (hev (c.regime.admits_mono hu hfirst.2)).bind fun u' v v' hu' hv => ?_
      rw [hv.isError]
      refine tracks_ite (tracks_pure (.error hv)) (tracks_pairs (fun e he => ?_) ?_)
      · have h := hentries e (List.mem_cons_of_mem _ he)
        exact ⟨c.regime.admits_mono (hu.trans hu') h.1, c.regime.admits_mono (hu.trans hu') h.2⟩
      · exact ((hdone.mono hu).mono hu').insert hv

/-- The branch that a condition chooses. -/
theorem tracks_branch {s : ScopeId} {pos : Pos} {condition : Expr} {consequence : Block} {alternative : Option Block}
    (h : c.regime.admits w (.expr (.cond pos condition consequence alternative)) s) {v v' : Value}
    (hv : c.Same w v v') :
    Tracks c w c.Same (finish ev s (.cond pos condition consequence alternative) [v])
      (finish ev (c.along.scope s) ((Expr.cond pos condition consequence alternative).relocate c.along.place) [v']) := by
  have hblock {block : Block} (hb : .block block ∈ (Node.expr (.cond pos condition consequence alternative)).children) :
      Tracks c w c.Same (ev (.block block) s) (ev (.block (block.relocate c.along.place)) (c.along.scope s)) :=
    hev (c.regime.admits_child h rfl hb)
  rw [Expr.relocate_cond, hv.1]
  simp only [finish, Value.isTruthy_rename]
  refine tracks_ite (hblock (by simp [Node.children])) ?_
  cases alternative with
  | none => exact tracks_pure (Likeness.same_plain rfl)
  | some block => exact hblock (by simp [Node.children])

theorem tracks_finish {s : ScopeId} {e : Expr} (he : c.regime.admits w (.expr e) s) {vs vs' : List Value}
    (h : c.SameAll w vs vs') :
    Tracks c w c.Same (finish ev s e vs) (finish ev (c.along.scope s) (e.relocate c.along.place) vs') := by
  obtain ⟨rfl, hgood⟩ := h
  have hnull : Tracks c w c.Same (pure .null) (pure .null) := tracks_pure (Likeness.same_plain rfl)
  cases e with
  | ident id => exact tracks_named he
  | int | bool | str => exact tracks_pure (Likeness.same_plain rfl)
  | array => exact tracks_array ⟨rfl, hgood⟩
  | hash => exact hnull
  | fn pos params body => exact tracks_function he
  | unary pos op operand =>
    match vs with
    | [v] =>
      have hx : Renamed c.along (ofExcept (v.applyUnary op)) (ofExcept ((v.rename c.along).applyUnary op)) := by
        rw [Value.applyUnary_rename]
        exact renamed_ofExcept _ _
      exact tracks_answers hgood (Value.answers_applyUnary op v) hx
    | [] | _ :: _ :: _ => exact hnull
  | binary pos op left right =>
    match vs with
    | [a, b] =>
      have hx : Renamed c.along (ofExcept (a.applyBinary op b))
          (ofExcept ((a.rename c.along).applyBinary op (b.rename c.along))) := by
        rw [Value.applyBinary_rename]
        exact renamed_ofExcept _ _
      exact tracks_answers hgood (Value.answers_applyBinary op a b) hx
    | [] | [_] | _ :: _ :: _ :: _ => exact hnull
  | index pos left index =>
    match vs with
    | [a, b] =>
      have hx : Renamed c.along (ofExcept (a.applyIndex b))
          (ofExcept ((a.rename c.along).applyIndex (b.rename c.along))) := by
        rw [Value.applyIndex_rename]
        exact renamed_ofExcept _ _
      exact tracks_answers hgood (Value.answers_applyIndex a b) hx
    | [] | [_] | _ :: _ :: _ :: _ => exact hnull
  | cond pos condition consequence alternative =>
    match vs with
    | [v] => exact tracks_branch hev he ⟨rfl, hgood v List.mem_cons_self⟩
    | [] | _ :: _ :: _ => cases alternative <;> exact hnull
  | call pos callee args =>
    match vs with
    | f :: us =>
      exact tracks_apply hev ⟨rfl, hgood f List.mem_cons_self⟩ ⟨rfl, fun v hv => hgood v (List.mem_cons_of_mem _ hv)⟩
    | [] => exact hnull

theorem tracks_expr {s : ScopeId} {e : Expr} (he : c.regime.admits w (.expr e) s) :
    Tracks c w c.Same (expr ev s e) (expr ev (c.along.scope s) (e.relocate c.along.place)) := by
  by_cases hhash : ∃ pos entries, e = .hash pos entries
  · obtain ⟨pos, entries, rfl⟩ := hhash
    have hentries : ∀ e ∈ entries, c.regime.admits w (.expr e.1) s ∧ c.regime.admits w (.expr e.2) s := fun e hmem =>
      ⟨c.regime.admits_child he rfl (List.mem_flatMap.2 ⟨e, hmem, by simp⟩),
        c.regime.admits_child he rfl (List.mem_flatMap.2 ⟨e, hmem, by simp⟩)⟩
    show Tracks c w c.Same _ (expr ev _ (.hash _ (Expr.relocatePairs _ entries)))
    rw [Expr.relocatePairs_eq]
    refine (tracks_pairs hev hentries Likeness.samePairs_nil).bind fun u r r' hu hr => ?_
    cases hr with
    | ok hkvs => exact tracks_hash hkvs
    | error hv => exact tracks_pure hv
  · have hne : ∀ pos entries, e ≠ .hash pos entries := fun pos entries h => hhash ⟨pos, entries, h⟩
    have hne' : ∀ pos entries, e.relocate c.along.place ≠ .hash pos entries := fun pos entries h => by
      cases e with
      | hash pos entries => exact hne pos entries rfl
      | cond pos condition consequence alternative => cases alternative <;> cases h
      | _ => cases h
    have hfn : (Node.expr e).literals = 0 ∨ e.operands = [] := by
      cases e with
      | fn => exact .inr rfl
      | _ => exact .inl rfl
    have hoperands : ∀ operand ∈ e.operands, c.regime.admits w (.expr operand) s := fun operand hmem => by
      rcases hfn with hfn | hnil
      · exact c.regime.admits_child he hfn (Expr.mem_children_of_operands hmem)
      · rw [hnil] at hmem
        cases hmem
    rw [expr_eq_finish hne, expr_eq_finish hne', Expr.operands_relocate]
    refine (tracks_expressions hev hoperands).bind fun u r r' hu hr => ?_
    cases hr with
    | ok hvs => exact tracks_finish hev (c.regime.admits_mono hu he) hvs
    | error hv => exact tracks_pure hv

/-! ### Statements -/

theorem tracks_statements {s : ScopeId} : ∀ {ss : List Stmt} {last last' : Value} {w : World},
    (∀ st ∈ ss, c.regime.admits w (.stmt st) s) → c.Same w last last' →
    Tracks c w c.Same (statements ev s last ss)
      (statements ev (c.along.scope s) last' (ss.map (Stmt.relocate c.along.place)))
  | [], _, _, _, _, hlast => tracks_pure hlast
  | st :: ss, _, _, w, hss, _ => by
    refine (hev (hss st List.mem_cons_self)).bind fun u v v' hu hv => ?_
    rw [hv.isSignal]
    refine tracks_ite (tracks_pure hv) ?_
    exact tracks_statements (fun st hst => c.regime.admits_mono hu (hss st (List.mem_cons_of_mem _ hst))) hv

theorem tracks_stmt {s : ScopeId} {st : Stmt} (h : c.regime.admits w (.stmt st) s) :
    Tracks c w c.Same (stmt ev s st) (stmt ev (c.along.scope s) (st.relocate c.along.place)) := by
  have hchild {child : Node} (hc : child ∈ (Node.stmt st).children) : c.regime.admits w child s :=
    c.regime.admits_child h rfl hc
  cases st with
  | expr token value => exact hev (hchild (by simp [Node.children]))
  | bind pos name value =>
    refine (hev (hchild (by simp [Node.children]))).bind fun u v v' hu hv => ?_
    rw [hv.isSignal]
    refine tracks_ite (tracks_pure hv) ?_
    have hname : c.regime.shown name.name = true := c.regime.admits_shown (hchild (by simp [Node.children]))
    exact (tracks_bindName hname hv).bind fun _ _ _ _ _ => tracks_pure (Likeness.same_plain rfl)
  | ret pos value =>
    cases value with
    | none => exact tracks_returned (Likeness.same_plain rfl) (by decide)
    | some value =>
      refine (hev (hchild (by simp [Node.children]))).bind fun u v v' hu hv => ?_
      rw [hv.isSignal]
      split
      · exact tracks_pure hv
      · rename_i hsignal
        exact tracks_returned hv fun htype => hsignal (Value.isSignal_of_returnValue htype)

theorem tracks_node {s : ScopeId} {nd : Node} (h : c.regime.admits w nd s) :
    Tracks c w c.Same (node ev s nd) (node ev (c.along.scope s) (nd.relocate c.along.place)) := by
  cases nd with
  | program p =>
    refine Tracks.bind (R := c.Same) ?_ fun _ v v' _ hv => tracks_pure hv.unwrap
    rw [Program.relocate_statements]
    refine tracks_statements hev (fun st hst => c.regime.admits_child h rfl ?_) (Likeness.same_plain rfl)
    exact List.mem_map_of_mem hst
  | block b =>
    show Tracks c w c.Same (statements ev s .null b.statements) (statements ev _ .null (b.relocate _).statements)
    rw [Block.relocate_statements]
    refine tracks_statements hev (fun st hst => c.regime.admits_child h rfl ?_) (Likeness.same_plain rfl)
    exact List.mem_map_of_mem hst
  | stmt st => exact tracks_stmt hev h
  | expr e => exact tracks_expr hev h

end

/-- **The same node in worlds that are alike**: either both evaluations overflow, or both give the same result up to
the renaming; and the worlds are alike again. -/
theorem tracks_evaluate : ∀ n : Nat, TracksBelow c (evaluate n)
  | 0, _, _, _, _ => tracks_overflow
  | n + 1, w, nd, s, h => by
    refine (tracks_emit (e := .enter nd s) h).bind fun u _ _ hu _ => ?_
    refine (tracks_node (tracks_evaluate n) (c.regime.admits_mono hu h)).bind fun u' v v' hu' hv => ?_
    obtain ⟨rfl, hgood⟩ := hv
    refine (tracks_emit (e := .leave nd s v) ⟨c.regime.admits_mono (hu.trans hu') h, hgood⟩).bind fun u'' _ _ hu'' _ => ?_
    exact tracks_pure ⟨rfl, hgood.mono hu''⟩

/-- Runs in worlds that are alike: the events are those of the runs alone. -/
theorem Tracks.run {w' : World} {x : Eval α} {y : Eval β} (hw : c.Alike w w')
    (h : Tracks ⟨c.regime, c.along, [], []⟩ { w with log := [] } R x y) :
    w.Older (x.run w).2 ∧ Likeness.Alike ⟨c.regime, c.along, [], []⟩ (x.run w).2 (y.run w').2 ∧
      Option.Rel (R (x.run w).2) (x.run w).1 (y.run w').1 := by
  have hends := h _ (hw.relog [] [])
  unfold Eval.run
  generalize x { w with log := [] } = first, y { w' with log := [] } = second at hends
  cases hends with
  | value older alike related => exact ⟨⟨older.fresh, older.size, older.enclosing⟩, alike, .some related⟩
  | overflow older alike => exact ⟨⟨older.fresh, older.size, older.enclosing⟩, alike, .none⟩

end Eval

/-! ## A run beside itself -/

namespace Regime

variable {g : Regime} {w : World}

/-- How an evaluation that keeps to the regime ends: in a later world that keeps to it, with events that fit, and with a
value that is good if it has one. -/
inductive Ends (g : Regime) (w : World) : Ending Value → Prop
  | value {v : Value} {w' : World} {es : List Event} (older : w.Older w') (kept : g.Kept w') (log : w'.log = es ++ w.log)
    (fits : ∀ e ∈ es, g.Fits w' e) (good : g.Good w' v) : Ends g w (.value v w')
  | overflow {w' : World} {es : List Event} (older : w.Older w') (kept : g.Kept w') (log : w'.log = es ++ w.log)
    (fits : ∀ e ∈ es, g.Fits w' e) : Ends g w (.overflow w')

/-- A world beside itself, with everything where it is. -/
def beside (g : Regime) (w : World) : Likeness := ⟨g, .placing id, w.log, w.log⟩

theorem Kept.alike (h : g.Kept w) : (g.beside w).Alike w w where
  toKept := h
  fresh _ := rfl
  size _ := rfl
  enclosing _ := (List.map_id _).symm
  visible _ := (Value.map_rename_placing_id _).symm
  log := ⟨[], rfl, rfl, fun _ he => nomatch he⟩

theorem Ends.of_tracks {x : Eval Value} (h : Eval.Tracks (g.beside w) w (g.beside w).Same x x) (hw : g.Kept w) :
    g.Ends w (x w) := by
  have hends := h w hw.alike
  cases hx : x w with
  | value v w' =>
    rw [hx] at hends
    cases hends with
    | value older alike related =>
      obtain ⟨es, hlog, -, hes⟩ := alike.log
      exact .value older alike.toKept hlog hes related.2
  | overflow w' =>
    rw [hx] at hends
    cases hends with
    | overflow older alike =>
      obtain ⟨es, hlog, -, hes⟩ := alike.log
      exact .overflow older alike.toKept hlog hes

/-- **An evaluation of a node that the regime admits keeps to the regime.** -/
theorem ends_evaluate (hw : g.Kept w) {nd : Node} {s : ScopeId} (h : g.admits w nd s) (n : Nat) :
    g.Ends w (Eval.evaluate n nd s w) := by
  refine .of_tracks ?_ hw
  have htracks := Eval.tracks_evaluate (c := g.beside w) n h
  rwa [show nd.relocate (g.beside w).along.place = nd from nd.relocate_id] at htracks

theorem ends_apply (hw : g.Kept w) {f : Value} {args : List Value} (hf : g.Good w f) (hargs : ∀ a ∈ args, g.Good w a)
    (n : Nat) : g.Ends w (Eval.apply (Eval.evaluate n) f args w) := by
  refine .of_tracks (Eval.tracks_apply (Eval.tracks_evaluate n) ⟨?_, hf⟩ ⟨?_, hargs⟩) hw
  · simp [beside]
  · simp [beside]

/-- The statements of a program keep to the regime, before their value is unwrapped. -/
theorem ends_statements (hw : g.Kept w) {p : Program} {s : ScopeId} (h : g.admits w (.program p) s) (n : Nat) :
    g.Ends w (Eval.statements (Eval.evaluate n) s .null p.statements w) := by
  refine .of_tracks ?_ hw
  have htracks := Eval.tracks_statements (c := g.beside w) (Eval.tracks_evaluate n)
    (fun st hst => g.admits_child h rfl (List.mem_map_of_mem hst)) (Likeness.same_plain (v := .null) rfl)
  rwa [← Program.relocate_statements, show p.relocate (g.beside w).along.place = p from p.relocate_id] at htracks

/-- The body of a function keeps to the regime in a call, before its value is unwrapped. -/
theorem ends_called (hw : g.Kept w) {id : Identity} {params : List Ident} {body : Block} {scope : ScopeId}
    {args : List Value} (hf : g.allows w (.fn id params body scope)) (hargs : ∀ a ∈ args, g.Good w a) (n : Nat) :
    g.Ends w (Eval.called (Eval.evaluate n) params body scope args w) := by
  have hsame : (g.beside w).SameAll w args args := ⟨by simp [beside], hargs⟩
  refine .of_tracks ?_ hw
  have htracks := Eval.tracks_called (c := g.beside w) (Eval.tracks_evaluate n) hf hsame
  rwa [show body.relocate (g.beside w).along.place = body from body.relocate_id,
    show params.map (Ident.relocate (g.beside w).along.place) = params from List.map_id _] at htracks

end Regime

end Monkey
