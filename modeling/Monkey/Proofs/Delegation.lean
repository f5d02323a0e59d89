import Monkey.Proofs.Repetition
/-!
# Calls among other work

A function of the language that makes calls of its own does other work between them, in the scope of its call and in
scopes inside that.  Such work leaves every older scope as it was (`World.Works`), so the calls find what they would find
if they were made one directly after the other.  One run therefore follows the other (`World.Follows`): from call to
call they stay alike, under numbers that the work between has moved; what has happened outside the function's own scopes
is what has happened in the calls.
-/
namespace Monkey

/-! ## Worlds that only grow -/

/-- What was there is there, and the scopes that were there are as they were. -/
structure World.Grows (w w' : World) : Prop where
  fresh : w.fresh ≤ w'.fresh
  size : w.store.size ≤ w'.store.size
  scopes : ∀ t : Nat, t < w.store.size → w'.store.scopes[t]? = w.store.scopes[t]?

namespace World.Grows

variable {w w' w'' : World}

theorem refl (w : World) : w.Grows w := ⟨Nat.le_refl _, Nat.le_refl _, fun _ _ => rfl⟩

theorem trans (h : w.Grows w') (h' : w'.Grows w'') : w.Grows w'' :=
  ⟨Nat.le_trans h.fresh h'.fresh, Nat.le_trans h.size h'.size, fun t ht =>
    (h'.scopes t (Nat.lt_of_lt_of_le ht h.size)).trans (h.scopes t ht)⟩

theorem enclosing (h : w.Grows w') {t : Nat} (ht : t < w.store.size) : w'.store.enclosing t = w.store.enclosing t := by
  refine Store.enclosing_congr t fun u hu => ?_
  rw [Store.outer?, Store.outer?, h.scopes u (Nat.lt_of_le_of_lt hu ht)]

theorem bindings (h : w.Grows w') {t : Nat} (ht : t < w.store.size) : w'.store.bindings t = w.store.bindings t := by
  rw [Store.bindings, Store.bindings, h.scopes t ht]

theorem chain (h : w.Grows w') {t : Nat} (ht : t < w.store.size) : w'.store.chain t = w.store.chain t := by
  rw [Store.chain, Store.chain, h.enclosing ht]

theorem older (h : w.Grows w') : w.Older w' := ⟨h.fresh, h.size, fun _ => h.enclosing⟩

/-- A name means what it meant. -/
theorem get? (h : w.Grows w') {s : Nat} (hs : ∀ t ∈ w.store.chain s, (t : Nat) < w.store.size) (name : String) :
    w'.store.get? s name = w.store.get? s name :=
  Store.get?_congr (h.chain (hs s List.mem_cons_self)) fun t ht => congrArg (List.lookup name) (h.bindings (hs t ht))

end World.Grows

/-! ## Work in scopes of one's own -/

/-- The event happens in the scope, or in one inside it. -/
def Event.inside (st : Store) (m : ScopeId) (e : Event) : Bool := e.scope?.any fun t => decide (m ∈ st.chain t)

/-- The value of a call by this name, where such a call ends. -/
def Event.answer? (callee : String) : Event → Option Value
  | leave (.expr (.call _ (.ident id) _)) _ v => if id.name = callee then some v else none
  | _ => none

/-- The scope exists, and it is `m` or inside it. -/
structure World.Own (w : World) (m : ScopeId) (s : Nat) : Prop where
  lt : s < w.store.size
  mem : m ∈ w.store.chain s

theorem World.Own.mono {w w' : World} {m : ScopeId} {s : Nat} (h : w.Own m s) (hw : w.Grows w') : w'.Own m s :=
  ⟨Nat.lt_of_lt_of_le h.lt hw.size, by rw [hw.chain h.lt]; exact h.mem⟩

theorem World.Own.set {w : World} {m : ScopeId} {t : Nat} (h : w.Own m t) (s : ScopeId) (name : String) (v : Value)
    (log : List Event) : World.Own { w with store := w.store.set s name v, log := log } m t :=
  ⟨by simpa using h.lt, by simpa [Store.chain, Store.enclosing_set] using h.mem⟩

theorem Event.inside_of_own {w : World} {m s : Nat} {e : Event} (he : e.scope? = some s) (h : w.Own m s) :
    e.inside w.store m = true := by
  simpa [inside, he] using h.mem

/-- Where an event has happened does not change. -/
theorem Event.inside_of_grows {w w' : World} (h : w.Grows w') {e : Event}
    (he : ∀ t : Nat, e.scope? = some t → t < w.store.size) (m : ScopeId) : e.inside w'.store m = e.inside w.store m := by
  unfold inside
  cases hscope : e.scope? with
  | none => rfl
  | some t => simp only [Option.any_some, h.chain (he t hscope)]

/-- Everything from `w` to `w'` has happened in `m` and inside it, without a printed line, and the scopes of `w` are as
they were; calls by the name `callee` have ended with these values, the last one first. -/
structure World.Works (callee : String) (m : ScopeId) (answers : List Value) (w w' : World) : Prop
    extends w.Grows w' where
  log : ∃ es, w'.log = es ++ w.log ∧ (∀ e ∈ es, ∃ t, e.scope? = some t ∧ w'.Own m t) ∧
    es.filterMap (Event.answer? callee) = answers

namespace World.Works

variable {callee : String} {m : ScopeId} {answers answers' : List Value} {w w' w'' : World}

theorem refl (callee : String) (m : ScopeId) (w : World) : Works callee m [] w w :=
  ⟨.refl w, [], rfl, List.forall_mem_nil _, rfl⟩

theorem trans (h : Works callee m answers w w') (h' : Works callee m answers' w' w'') :
    Works callee m (answers' ++ answers) w w'' := by
  obtain ⟨es, hlog, hown, hanswers⟩ := h.log
  obtain ⟨es', hlog', hown', hanswers'⟩ := h'.log
  refine ⟨h.toGrows.trans h'.toGrows, es' ++ es, by rw [hlog', hlog, List.append_assoc], fun e he => ?_, ?_⟩
  · rcases List.mem_append.1 he with he | he
    · exact hown' e he
    · obtain ⟨t, ht, hm⟩ := hown e he
      exact ⟨t, ht, hm.mono h'.toGrows⟩
  · rw [List.filterMap_append, hanswers, hanswers']

/-- Work without such calls, and more work. -/
theorem andThen (h : Works callee m [] w w') (h' : Works callee m answers w' w'') : Works callee m answers w w'' := by
  simpa using h.trans h'

/-! Work goes on: an event in an own scope, something made, a scope opened, a name bound in a scope that is new. -/

theorem emit (h : Works callee m answers w w') {e : Event} {s : ScopeId} (he : e.scope? = some s) (hs : w'.Own m s) :
    Works callee m ((e.answer? callee).toList ++ answers) w { w' with log := e :: w'.log } := by
  have hstep : Works callee m (e.answer? callee).toList w' { w' with log := e :: w'.log } := by
    refine ⟨⟨Nat.le_refl _, Nat.le_refl _, fun _ _ => rfl⟩, [e], rfl, ?_, ?_⟩
    · exact List.forall_mem_singleton.2 ⟨s, he, hs.lt, hs.mem⟩
    · cases h : e.answer? callee <;> simp [h]
  exact h.trans hstep

theorem made (h : Works callee m answers w w') : Works callee m answers w { w' with fresh := w'.fresh + 1 } := by
  obtain ⟨es, hlog, hown, hanswers⟩ := h.log
  refine ⟨⟨Nat.le_succ_of_le h.fresh, h.size, h.scopes⟩, es, hlog, fun e he => ?_, hanswers⟩
  obtain ⟨t, ht, hm⟩ := hown e he
  exact ⟨t, ht, hm.lt, hm.mem⟩

theorem push (h : Works callee m answers w w') (outer : Option ScopeId) :
    Works callee m answers w { w' with store := w'.store.push outer } := by
  have hgrows : w'.Grows { w' with store := w'.store.push outer } := by
    refine ⟨Nat.le_refl _, by simp, fun t ht => ?_⟩
    exact Store.scope_eq ht (by simp only [Store.size_push]; omega) (Store.enclosing_push _ ht outer)
      (Store.bindings_push _ outer t)
  simpa using h.trans ⟨hgrows, [], rfl, List.forall_mem_nil _, rfl⟩

theorem bind (h : Works callee m answers w w') {s : ScopeId} (hs : w'.Own m s) (hnew : w.store.size ≤ s) (name : String)
    (v : Value) :
    Works callee m answers w { w' with store := w'.store.set s name v, log := .bind s name v :: w'.log } := by
  obtain ⟨es, hlog, hes, hanswers⟩ := h.log
  refine ⟨⟨h.fresh, by simpa using h.size, fun t ht => ?_⟩, .bind s name v :: es, by simp [hlog], ?_, hanswers⟩
  · have hne : s ≠ t := fun hst => Nat.not_lt.2 hnew (hst ▸ ht)
    refine Store.scope_eq ht (by simpa using Nat.lt_of_lt_of_le ht h.size) ?_ ?_
    · exact (Store.enclosing_set _ s name v t).trans (h.enclosing ht)
    · exact ((Store.bindings_set _ hs.lt name v t).trans (if_neg hne)).trans (h.bindings ht)
  · refine List.forall_mem_cons.2 ⟨⟨s, rfl, hs.set s name v _⟩, fun e he => ?_⟩
    obtain ⟨t, ht, hm⟩ := hes e he
    exact ⟨t, ht, hm.set s name v _⟩

end World.Works

/-! ## Numbers that the work has moved -/

/-- The renaming, with everything behind the first world moved behind the second. -/
def Renaming.beyond (r : Renaming) (w w' : World) : Renaming where
  identity := (Renaming.between w w').identity ∘ r.identity
  scope := (Renaming.between w w').scope ∘ r.scope
  place := r.place
  identity_injective := (Renaming.between w w').identity_injective.comp r.identity_injective
  scope_injective := (Renaming.between w w').scope_injective.comp r.scope_injective

theorem Event.rename_of_agree {r r' : Renaming} (hplace : r'.place = r.place) {e : Event}
    (hscope : ∀ t, e.scope? = some t → r'.scope t = r.scope t)
    (hvalue : ∀ v, e.value? = some v → v.rename r' = v.rename r) :
    e.rename r' = e.rename r := by
  cases e with
  | enter nd s => rw [rename, rename, hplace, hscope s rfl]
  | leave nd s v => rw [rename, rename, hplace, hscope s rfl, hvalue v rfl]
  | bind s name v => rw [rename, rename, hscope s rfl, hvalue v rfl]
  | print line => rfl

theorem Event.scope?_rename (r : Renaming) (e : Event) : (e.rename r).scope? = e.scope?.map r.scope := by
  cases e <;> rfl

/-- Events that show nothing can be left out of what is shown. -/
theorem Event.join_filter {p : Event → Bool} : ∀ {es : List Event}, (∀ e ∈ es, p e = false → e.text false = "") →
    String.join ((es.filter p).map (·.text false)) = String.join (es.map (·.text false))
  | [], _ => rfl
  | e :: es, h => by
    obtain ⟨he, hes⟩ := List.forall_mem_cons.1 h
    rw [List.filter_cons, List.map_cons, String.join_cons]
    split
    · rw [List.map_cons, String.join_cons, join_filter hes]
    · rename_i hp
      rw [he (Bool.eq_false_iff.2 hp), String.empty_append, join_filter hes]

/-- The values of an event that fits are good. -/
theorem Regime.Fits.value {g : Regime} {w : World} {e : Event} (h : g.Fits w e) {v : Value} (hv : e.value? = some v) :
    g.Good w v := by
  cases e with
  | leave nd s u => cases hv; exact h.2
  | bind s name u => cases hv; exact h
  | _ => cases hv

namespace Likeness.Alike

variable {r : Renaming} {since since' : List Event} {u v v' : World}

theorem identity_lt {c : Likeness} (h : c.Alike u v) {i : Nat} (hi : i < u.fresh) : c.along.identity i < v.fresh := by
  by_contra hle
  have heq := h.fresh (c.along.identity i - v.fresh)
  rw [Nat.add_sub_cancel' (Nat.not_lt.1 hle)] at heq
  have hi' : u.fresh + (c.along.identity i - v.fresh) = i := c.along.identity_injective heq
  exact Nat.not_le.2 hi (Nat.le.intro hi')

theorem identity_beyond (h : Alike ⟨.standing, r, since, since'⟩ u v) {i : Nat} (hi : i < u.fresh) (v' : World) :
    (r.beyond v v').identity i = r.identity i := Renaming.lift_of_lt (h.identity_lt hi)

theorem scope_beyond (h : Alike ⟨.standing, r, since, since'⟩ u v) {t : Nat} (ht : t < u.store.size) (v' : World) :
    (r.beyond v v').scope t = r.scope t := Renaming.lift_of_lt (h.scope_lt ht)

/-- What there is keeps the number it got. -/
theorem rename_beyond (h : Alike ⟨.standing, r, since, since'⟩ u v) {y : Value} (hy : Regime.standing.Good u y)
    (v' : World) : y.rename (r.beyond v v') = y.rename r :=
  Value.rename_of_agree (show (r.beyond v v').place = r.place from rfl) y fun p hp =>
    ⟨fun i hi => h.identity_beyond ((hy p hp).1 i hi) v',
      fun id params body scope heq => h.scope_beyond ((hy p hp).2 id params body scope heq) v'⟩

/-- Where the second world has gone on by itself, the worlds are alike under the numbers moved. -/
theorem beyond (h : Alike ⟨.standing, r, since, since'⟩ u v) (hv : v.Grows v') :
    Alike ⟨.standing, r.beyond v v', u.log, v'.log⟩ u v' := by
  -- a scope that the first world has not is moved behind all that the second has now
  have hbehind {t : Nat} (ht : ¬ t < u.store.size) : v'.store.size ≤ (r.beyond v v').scope t :=
    Renaming.le_lift (h.size_le (Nat.not_lt.1 ht))
  refine ⟨h.toKept, fun k => ?_, fun k => ?_, fun t => ?_, fun t => ?_, [], rfl, rfl, nofun⟩
  · show Renaming.lift _ _ (r.identity (u.fresh + k)) = _
    rw [h.fresh k]
    exact Renaming.lift_add hv.fresh k
  · show Renaming.lift _ _ (r.scope (u.store.size + k)) = _
    rw [h.size k]
    exact Renaming.lift_add hv.size k
  · by_cases ht : t < u.store.size
    · have hmap : (u.store.enclosing t).map (r.beyond v v').scope = (u.store.enclosing t).map r.scope :=
        List.map_congr_left fun o ho => h.scope_beyond (h.outward t ht o ho) v'
      rw [hmap, show (r.beyond v v').scope t = r.scope t from h.scope_beyond ht v', hv.enclosing (h.scope_lt ht)]
      exact h.enclosing t
    · rw [Store.enclosing_of_size_le _ (Nat.not_lt.1 ht), Store.enclosing_of_size_le _ (hbehind ht)]
      rfl
  · by_cases ht : t < u.store.size
    · have hmap : ((Regime.standing.visible (u.store.bindings t)).map fun b => (b.1, b.2.rename (r.beyond v v'))) =
          (Regime.standing.visible (u.store.bindings t)).map fun b => (b.1, b.2.rename r) :=
        List.map_congr_left fun b hb => congrArg (b.1, ·) (h.rename_beyond (h.bound t ht b hb) v')
      rw [hmap, show (r.beyond v v').scope t = r.scope t from h.scope_beyond ht v', hv.bindings (h.scope_lt ht)]
      exact h.visible t
    · rw [Store.bindings_of_size_le _ (Nat.not_lt.1 ht), Store.bindings_of_size_le _ (hbehind ht)]
      rfl

/-- As the first world has made more, so has the second. -/
theorem fresh_le {c c' : Likeness} {u' : World} (h : c.Alike u v) (h' : c'.Alike u' v') (halong : c'.along = c.along)
    (hold : u.Older u') : v.fresh ≤ v'.fresh := by
  obtain ⟨k, hk⟩ := Nat.le.dest hold.fresh
  have hfresh := h'.fresh 0
  rw [halong, Nat.add_zero, Nat.add_zero, ← hk, h.fresh k] at hfresh
  exact Nat.le.intro hfresh

/-- An event of the first world is in the second outside every scope that the renaming never gives. -/
theorem inside_rename {c : Likeness} (h : c.Alike u v) {m : ScopeId} (hm : ∀ t, c.along.scope t ≠ m) (e : Event) :
    (e.rename c.along).inside v.store m = false := by
  unfold Event.inside
  rw [Event.scope?_rename]
  cases e.scope? with
  | none => rfl
  | some t =>
    refine decide_eq_false fun hmem => ?_
    rw [Store.chain, h.enclosing, ← List.map_cons] at hmem
    obtain ⟨o, -, heq⟩ := List.mem_map.1 hmem
    exact hm o heq

/-- A call of what is the same in both worlds, made in both.  It leaves the scopes there are as they were, and its events
are the same, renamed. -/
theorem call (h : Alike ⟨.standing, r, u.log, v.log⟩ u v) {n : Nat} {f y : Value} {args : List Value} {u' : World}
    (hf : f.rename r = f) (hgood : Regime.standing.Good u f)
    (hargs : ∀ a ∈ args, a.rename r = a ∧ Regime.standing.Good u a)
    (hrun : Eval.apply (Eval.evaluate n) f args u = .value y u') :
    ∃ v' es, Eval.apply (Eval.evaluate n) f args v = .value (y.rename r) v' ∧ u.Older u' ∧ v.Grows v' ∧
      Alike ⟨.standing, r, u'.log, v'.log⟩ u' v' ∧ Regime.standing.Good u' y ∧ u'.log = es ++ u.log ∧
      v'.log = es.map (Event.rename r) ++ v.log ∧ ∀ e ∈ es, (∀ t : Nat, e.scope? = some t → t < u'.store.size) ∧
        ∀ x, e.value? = some x → Regime.standing.Good u' x := by
  have hargs' : args = args.map (Value.rename r) :=
    ((List.map_congr_left fun a ha => (hargs a ha).1).trans (List.map_id _)).symm
  have hends := Eval.tracks_apply (Eval.tracks_evaluate n) ⟨hf.symm, hgood⟩ ⟨hargs', fun a ha => (hargs a ha).2⟩ v h
  rw [hrun] at hends
  generalize hrun' : Eval.apply (Eval.evaluate n) f args v = second at hends
  cases hends with
  | @value _ _ _ v' older alike related =>
    obtain ⟨rfl, hy⟩ := related
    obtain ⟨es, hlog, hlog', hfits⟩ := alike.log
    -- neither call touches a scope that was there, and their events are in scopes that they have opened
    obtain ⟨ds, hds, hfirst⟩ := Eval.framed_apply (Eval.framed_evaluate n) f args u (Nat.zero_le _) y u' hrun
    obtain ⟨_, -, hsecond⟩ := Eval.framed_apply (Eval.framed_evaluate n) f args v (Nat.zero_le _) _ v' hrun'
    have hreverse : ds.reverse = es := List.append_cancel_right (hds.symm.trans hlog)
    have hgrows : v.Grows v' :=
      ⟨h.fresh_le alike rfl older, hsecond.grows, fun t ht => hsecond.scope_eq ht fun _ h => h.elim⟩
    refine ⟨v', es, rfl, older, hgrows, alike.relog _ _, hy, hlog, hlog', fun e he => ⟨fun t ht => ?_, fun x hx => ?_⟩⟩
    · exact hfirst.scope_lt (List.mem_reverse.1 (hreverse ▸ he)) ht
    · exact (hfits e he).value hx

end Likeness.Alike

/-! ## A run that follows calls -/

/-- Since `base`, nothing but calls has led to `u`, and the same calls among work in and inside `m` to `v`: the worlds
are alike up to a renaming that leaves alone what was there at `base`, and what has happened outside `m` are the events
of the calls, renamed. -/
structure World.Along (base : World) (m : ScopeId) (r : Renaming) (u v : World) : Prop where
  older : base.Older u
  grows : base.Grows v
  alike : Likeness.Alike ⟨.standing, r, u.log, v.log⟩ u v
  place : r.place = id
  identity : ∀ i : Nat, i < base.fresh → r.identity i = i
  scope : ∀ t : Nat, t < base.store.size → r.scope t = t
  opened : m < v.store.size
  apart : ∀ t, r.scope t ≠ m
  called : ∀ e ∈ u.log, (∀ t : Nat, e.scope? = some t → t < u.store.size) ∧
    ∀ y, e.value? = some y → Regime.standing.Good u y
  there : ∀ e ∈ v.log, ∀ t : Nat, e.scope? = some t → t < v.store.size
  outside : (v.log.filter fun e => !e.inside v.store m) = u.log.map (Event.rename r)

/-- The answers to calls by a name in the scope `m` and inside it, the last one first. -/
def World.answers (w : World) (callee : String) (m : ScopeId) : List Value :=
  (w.log.filter (·.inside w.store m)).filterMap (Event.answer? callee)

namespace World

variable {callee : String} {m : ScopeId} {answers : List Value} {base u v v' : World} {r : Renaming}

/-- The events from before are where they were. -/
theorem Grows.filter_inside (h : v.Grows v') (hthere : ∀ e ∈ v.log, ∀ t : Nat, e.scope? = some t → t < v.store.size)
    (m : ScopeId) : v.log.filter (·.inside v'.store m) = v.log.filter (·.inside v.store m) :=
  List.filter_congr fun e he => Event.inside_of_grows h (hthere e he) m

theorem Grows.filter_outside (h : v.Grows v') (hthere : ∀ e ∈ v.log, ∀ t : Nat, e.scope? = some t → t < v.store.size)
    (m : ScopeId) : (v.log.filter fun e => !e.inside v'.store m) = v.log.filter fun e => !e.inside v.store m :=
  List.filter_congr fun e he => congrArg (!·) (Event.inside_of_grows h (hthere e he) m)

/-- Work at the beginning, in a scope that it opens. -/
theorem Works.along (h : Works callee base.store.size [] base v) (hbase : Regime.standing.Kept base)
    (hlog : base.log = []) (hopened : base.store.size < v.store.size) : Along base base.store.size (.between base v) base v := by
  obtain ⟨es, hes, hown, -⟩ := h.log
  rw [hlog, List.append_nil] at hes
  refine ⟨.refl base, h.toGrows, hbase.alike_between h.older h.scopes, rfl, fun i => Renaming.lift_of_lt,
    fun t => Renaming.lift_of_lt, hopened, fun t heq => ?_, by rw [hlog]; exact List.forall_mem_nil _,
    fun e he t ht => ?_, ?_⟩
  · by_cases ht : t < base.store.size
    · exact Nat.ne_of_lt ht ((show (Renaming.between base v).scope t = t from Renaming.lift_of_lt ht).symm.trans heq)
    · exact Nat.not_le.2 hopened (heq ▸ Renaming.le_lift (Nat.not_lt.1 ht))
  · obtain ⟨s, hs, hm⟩ := hown e (hes ▸ he)
    cases ht.symm.trans hs
    exact hm.lt
  · rw [hlog, hes, List.map_nil, List.filter_eq_nil_iff]
    intro e he
    obtain ⟨s, hs, hm⟩ := hown e he
    simp [Event.inside_of_own hs hm]

/-- Work goes on. -/
theorem Along.works (h : base.Along m r u v) (hv : Works callee m answers v v') :
    base.Along m (r.beyond v v') u v' ∧ v'.answers callee m = answers ++ v.answers callee m := by
  obtain ⟨es, hes, hown, hanswers⟩ := hv.log
  have hinside : es.filter (·.inside v'.store m) = es := List.filter_eq_self.2 fun e he => by
    obtain ⟨s, hs, hm⟩ := hown e he
    exact Event.inside_of_own hs hm
  have houtside : (es.filter fun e => !e.inside v'.store m) = [] := List.filter_eq_nil_iff.2 fun e he => by
    obtain ⟨s, hs, hm⟩ := hown e he
    simp [Event.inside_of_own hs hm]
  refine ⟨⟨h.older, h.grows.trans hv.toGrows, h.alike.beyond hv.toGrows, h.place, fun i hi => ?_, fun t ht => ?_,
    Nat.lt_of_lt_of_le h.opened hv.size, fun t heq => ?_, h.called, fun e he t ht => ?_, ?_⟩, ?_⟩
  · exact (h.alike.identity_beyond (Nat.lt_of_lt_of_le hi h.older.fresh) v').trans (h.identity i hi)
  · exact (h.alike.scope_beyond (Nat.lt_of_lt_of_le ht h.older.size) v').trans (h.scope t ht)
  · by_cases ht : t < u.store.size
    · exact h.apart t ((h.alike.scope_beyond ht v').symm.trans heq)
    · have hle : v'.store.size ≤ m := heq ▸ Renaming.le_lift (h.alike.size_le (Nat.not_lt.1 ht))
      exact Nat.not_le.2 h.opened (Nat.le_trans hv.size hle)
  · rcases List.mem_append.1 (hes ▸ he) with he | he
    · obtain ⟨s, hs, hm⟩ := hown e he
      cases ht.symm.trans hs
      exact hm.lt
    · exact Nat.lt_of_lt_of_le (h.there e he t ht) hv.size
  · rw [hes, List.filter_append, houtside, List.nil_append, hv.toGrows.filter_outside h.there, h.outside]
    refine List.map_congr_left fun e he => (Event.rename_of_agree
      (show (r.beyond v v').place = r.place from rfl) (fun t ht => ?_) fun y hy => ?_).symm
    · exact h.alike.scope_beyond ((h.called e he).1 t ht) v'
    · exact h.alike.rename_beyond ((h.called e he).2 y hy) v'
  · rw [World.answers, hes, List.filter_append, hinside, hv.toGrows.filter_inside h.there, List.filterMap_append, hanswers]
    rfl

/-- What was there at the beginning is what it was. -/
theorem Along.rename_eq (h : base.Along m r u v) {y : Value} (hy : Regime.standing.Good base y) : y.rename r = y :=
  Value.rename_of_fixed h.place y fun p hp => ⟨fun i hi => h.identity i ((hy p hp).1 i hi),
    fun id params body scope heq => h.scope scope ((hy p hp).2 id params body scope heq)⟩

/-- A call of what was there at the beginning is made in both. -/
theorem Along.call (h : base.Along m r u v) (callee : String) {n : Nat} {f y : Value} {args : List Value} {u' : World}
    (hf : Regime.standing.Good base f) (hargs : ∀ a ∈ args, Regime.standing.Good base a)
    (hrun : Eval.apply (Eval.evaluate n) f args u = .value y u') :
    ∃ v', Eval.apply (Eval.evaluate n) f args v = .value (y.rename r) v' ∧ base.Along m r u' v' ∧ v.Grows v' ∧
      u.Older u' ∧ Regime.standing.Good u' y ∧ v'.answers callee m = v.answers callee m := by
  obtain ⟨v', es, hrun', older, hgrows, alike, hgood, hlog, hlog', hes⟩ := h.alike.call (h.rename_eq hf)
    (hf.mono h.older) (fun a ha => ⟨h.rename_eq (hargs a ha), (hargs a ha).mono h.older⟩) hrun
  have houtside : ∀ e ∈ es.map (Event.rename r), e.inside v'.store m = false :=
    List.forall_mem_map.2 fun e _ => alike.inside_rename h.apart e
  have hnone : (es.map (Event.rename r)).filter (·.inside v'.store m) = [] :=
    List.filter_eq_nil_iff.2 fun e he => by simp [houtside e he]
  have hall : ((es.map (Event.rename r)).filter fun e => !e.inside v'.store m) = es.map (Event.rename r) :=
    List.filter_eq_self.2 fun e he => by simp [houtside e he]
  refine ⟨v', hrun', ⟨h.older.trans older, h.grows.trans hgrows, alike, h.place, h.identity, h.scope,
    Nat.lt_of_lt_of_le h.opened hgrows.size, h.apart, fun e he => ?_, fun e he t ht => ?_, ?_⟩, hgrows, older, hgood, ?_⟩
  · rcases List.mem_append.1 (hlog ▸ he) with he | he
    · exact hes e he
    · exact ⟨fun t ht => Nat.lt_of_lt_of_le ((h.called e he).1 t ht) older.size,
        fun y hy => ((h.called e he).2 y hy).mono older⟩
  · rcases List.mem_append.1 (hlog' ▸ he) with he | he
    · obtain ⟨d, hd, rfl⟩ := List.mem_map.1 he
      rw [Event.scope?_rename] at ht
      obtain ⟨t', ht', rfl⟩ := Option.map_eq_some_iff.1 ht
      exact alike.scope_lt ((hes d hd).1 t' ht')
    · exact Nat.lt_of_lt_of_le (h.there e he t ht) hgrows.size
  · rw [hlog', List.filter_append, hall, hgrows.filter_outside h.there, h.outside, hlog, List.map_append]
  · rw [World.answers, hlog', List.filter_append, hnone, List.nil_append, hgrows.filter_inside h.there]
    rfl

/-- In order: outside the own scopes has happened what has happened in the calls. -/
theorem Along.events (h : base.Along m r u v) :
    (v.events.filter fun e => !e.inside v.store m) = u.events.map (Event.rename r) := by
  rw [World.events, List.filter_reverse, h.outside, World.events, List.map_reverse]

/-- What the calls print is what is printed. -/
theorem Along.output (h : base.Along m r u v) : v.output false = u.output false := by
  have hsilent : ∀ e ∈ v.events, (!e.inside v.store m) = false → e.text false = "" := fun e _ he => by
    cases e with
    | print line => cases he
    | _ => rfl
  rw [World.output, ← Event.join_filter hsilent, h.events, Event.texts_rename]
  rfl

/-- A run has got to `v` as calls made one directly after the other have got to `u`.  The calls have given `ys`; in the
run they have given `zs`, the same under other numbers, in answer to the calls by the name `callee` in its own scopes. -/
def Follows (base : World) (callee : String) (m : ScopeId) (u : World) (ys : List Value) (v : World) (zs : List Value) :
    Prop :=
  ∃ r, base.Along m r u v ∧ zs = ys.map (Value.rename r) ∧ (∀ y ∈ ys, Regime.standing.Good u y) ∧
    v.answers callee m = zs.reverse

theorem Follows.grows {ys zs : List Value} (h : base.Follows callee m u ys v zs) : base.Grows v := by
  obtain ⟨r, halong, -⟩ := h
  exact halong.grows

theorem Works.follows (h : Works callee base.store.size [] base v) (hbase : Regime.standing.Kept base)
    (hlog : base.log = []) (hopened : base.store.size < v.store.size) :
    base.Follows callee base.store.size base [] v [] := by
  obtain ⟨es, hes, -, hanswers⟩ := h.log
  rw [hlog, List.append_nil] at hes
  have hsub : (v.answers callee base.store.size).Sublist (es.filterMap (Event.answer? callee)) := by
    rw [answers, hes]
    exact List.filter_sublist.filterMap _
  rw [hanswers] at hsub
  exact ⟨_, h.along hbase hlog hopened, rfl, List.forall_mem_nil _, List.sublist_nil.1 hsub⟩

theorem Follows.works {ys zs : List Value} (h : base.Follows callee m u ys v zs) (hv : Works callee m [] v v') :
    base.Follows callee m u ys v' zs := by
  obtain ⟨r, halong, rfl, hgood, hanswers⟩ := h
  obtain ⟨halong', hanswers'⟩ := halong.works hv
  refine ⟨_, halong', List.map_congr_left fun y hy => ?_, hgood, hanswers'.trans hanswers⟩
  exact (halong.alike.rename_beyond (hgood y hy) v').symm

/-- One more call, made in both, and work that starts with its answer. -/
theorem Follows.call {ys zs : List Value} (h : base.Follows callee m u ys v zs) {n : Nat} {f y : Value}
    {args : List Value} {u' : World} (hf : Regime.standing.Good base f) (hargs : ∀ a ∈ args, Regime.standing.Good base a)
    (hrun : Eval.apply (Eval.evaluate n) f args u = .value y u') :
    ∃ z v', Eval.apply (Eval.evaluate n) f args v = .value z v' ∧ v.Grows v' ∧ z.isSignal = y.isSignal ∧
      ∀ v'', Works callee m [z] v' v'' → base.Follows callee m u' (ys ++ [y]) v'' (zs ++ [z]) := by
  obtain ⟨r, halong, rfl, hgood, hanswers⟩ := h
  obtain ⟨v', hrun', halong', hgrows, hold, hy, hanswers'⟩ := halong.call callee hf hargs hrun
  refine ⟨_, v', hrun', hgrows, Value.isSignal_rename r y, fun v'' hwork => ?_⟩
  obtain ⟨halong'', hanswers''⟩ := halong'.works hwork
  have hgood' : ∀ x ∈ ys ++ [y], Regime.standing.Good u' x := fun x hx => by
    rcases List.mem_append.1 hx with hx | hx
    · exact (hgood x hx).mono hold
    · rwa [List.mem_singleton.1 hx]
  refine ⟨_, halong'', ?_, hgood', ?_⟩
  · rw [← List.map_singleton, ← List.map_append]
    exact List.map_congr_left fun x hx => (halong'.alike.rename_beyond (hgood' x hx) v'').symm
  · rw [hanswers'', hanswers', hanswers, List.reverse_append]
    rfl

end World

end Monkey
