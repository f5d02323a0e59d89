import Monkey.Session.Submission
/-!
# What an evaluation guarantees

A statement about an evaluation that ends with a result says something of what has happened, of the result and of the
world after it (`Eval.Gives`).  The log of a world has its last event first; here the events of an evaluation stand in
the order in which they happened, so that the events of a sequence are those of its parts, one behind the other.
-/
namespace Monkey

/-- The world at the end. -/
def Ending.world {α : Type} : Ending α → World
  | value _ w => w
  | overflow w => w

@[simp] theorem Ending.world_value {α : Type} (a : α) (w : World) : (Ending.value a w).world = w := rfl

namespace Eval

variable {α β : Type}

theorem bind_value {x : Eval α} {f : α → Eval β} {w w' : World} {a : α} (h : x w = .value a w') :
    (x >>= f) w = f a w' := by
  show andThen x f w = _
  unfold andThen
  rw [h]

theorem bind_overflow {x : Eval α} {f : α → Eval β} {w w' : World} (h : x w = .overflow w') :
    (x >>= f) w = .overflow w' := by
  show andThen x f w = _
  unfold andThen
  rw [h]

theorem exists_of_bind {x : Eval α} {f : α → Eval β} {w w'' : World} {b : β} (h : (x >>= f) w = .value b w'') :
    ∃ a w', x w = .value a w' ∧ f a w' = .value b w'' := by
  change andThen x f w = _ at h
  unfold andThen at h
  split at h
  · exact ⟨_, _, ‹_›, h⟩
  · cases h

/-- If the evaluation ends with a result, `D` holds of its events, its result and the world after it. -/
def Gives (x : Eval α) (w : World) (D : List Event → α → World → Prop) : Prop :=
  ∀ a w', x w = .value a w' → ∃ es, w'.log = es.reverse ++ w.log ∧ D es a w'

section

variable {x : Eval α} {w : World} {C D : List Event → α → World → Prop}

theorem Gives.imp (h : x.Gives w C) (hD : ∀ es a w', C es a w' → D es a w') : x.Gives w D := fun a w' hx => by
  obtain ⟨es, hlog, hC⟩ := h a w' hx
  exact ⟨es, hlog, hD es a w' hC⟩

/-- An evaluation has only one list of events. -/
theorem Gives.and (h : x.Gives w C) (h' : x.Gives w D) : x.Gives w fun es a w' => C es a w' ∧ D es a w' :=
  fun a w' hx => by
    obtain ⟨es, hlog, hC⟩ := h a w' hx
    obtain ⟨es', hlog', hD⟩ := h' a w' hx
    have hes : es = es' := List.reverse_inj.1 (List.append_cancel_right (hlog.symm.trans hlog'))
    exact ⟨es, hlog, hC, hes ▸ hD⟩

theorem gives_pure {a : α} (h : D [] a w) : (pure a : Eval α).Gives w D := fun b w' hx => by
  cases hx
  exact ⟨[], rfl, h⟩

/-- A run that has a result is an evaluation that ends with it. -/
theorem value_of_run {v : α} {w' : World} (h : x.run w = (some v, w')) : x { w with log := [] } = .value v w' := by
  unfold run at h
  split at h
  · cases h
    assumption
  · cases h

theorem exists_value_of_run {w : World} (h : (x.run w).1.isSome = true) :
    ∃ v, x { w with log := [] } = .value v (x.run w).2 := by
  obtain ⟨v, hv⟩ := Option.isSome_iff_exists.1 h
  exact ⟨v, value_of_run (Prod.ext hv rfl)⟩

theorem exists_value_of_map {f : α → β} {b : β} {w : World} (h : (x.run w).1.map f = some b) :
    ∃ v, x { w with log := [] } = .value v (x.run w).2 ∧ f v = b := by
  obtain ⟨v, hv, hb⟩ := Option.map_eq_some_iff.1 h
  exact ⟨v, value_of_run (Prod.ext hv rfl), hb⟩

theorem Gives.bind {f : α → Eval β} {D : List Event → β → World → Prop} (h : x.Gives w C)
    (hf : ∀ es a w', C es a w' → (f a).Gives w' fun es' b w'' => D (es ++ es') b w'') : (x >>= f).Gives w D := by
  intro b w'' hx
  obtain ⟨a, w', hxa, hfa⟩ := exists_of_bind hx
  obtain ⟨es, hlog, hC⟩ := h a w' hxa
  obtain ⟨es', hlog', hD⟩ := hf es a w' hC b w'' hfa
  exact ⟨es ++ es', by rw [hlog', hlog, List.reverse_append, List.append_assoc], hD⟩

theorem gives_overflow : (overflow : Eval α).Gives w D := fun _ _ hx => nomatch hx

theorem gives_emit {e : Event} {D : List Event → Unit → World → Prop} (h : D [e] () { w with log := e :: w.log }) :
    (emit e).Gives w D := fun _ _ hx => by
  cases hx
  exact ⟨[e], rfl, h⟩

theorem gives_lookup {s : ScopeId} {name : String} {D : List Event → Option Value → World → Prop}
    (h : D [] (w.store.get? s name) w) : (lookup s name).Gives w D := fun _ _ hx => by
  cases hx
  exact ⟨[], rfl, h⟩

theorem gives_bindName {s : ScopeId} {name : String} {v : Value} {D : List Event → Unit → World → Prop}
    (h : D [.bind s name v] () { w with store := w.store.set s name v, log := .bind s name v :: w.log }) :
    (bindName s name v).Gives w D := fun _ _ hx => by
  cases hx
  exact ⟨[_], rfl, h⟩

theorem gives_openScope_bind {outer : Option ScopeId} {f : ScopeId → Eval α}
    (h : (f w.store.next).Gives { w with store := w.store.push outer } C) : (openScope outer >>= f).Gives w C := h

/-- Whatever has an identity is made under the next one. -/
theorem gives_made {make : Identity → Value} {D : List Event → Value → World → Prop}
    (h : D [] (make w.fresh) { w with fresh := w.fresh + 1 }) :
    (identity >>= fun id => pure (make id) : Eval Value).Gives w D := fun _ _ hx => by
  cases hx
  exact ⟨[], rfl, h⟩

/-- The events of a run are those of the evaluation alone. -/
theorem Gives.of_run {v : α} {w' : World} (h : x.Gives { w with log := [] } D) (hx : x.run w = (some v, w')) :
    D w'.events v w' := by
  obtain ⟨es, hlog, hD⟩ := h v w' (value_of_run hx)
  rw [World.events, hlog, List.append_nil, List.reverse_reverse]
  exact hD

end

theorem id_map {α : Type} (x : Eval α) : id <$> x = x := by
  funext w
  show andThen x _ w = x w
  unfold andThen
  cases x w <;> rfl

theorem andThen_assoc {α β γ : Type} (x : Eval α) (f : α → Eval β) (g : β → Eval γ) :
    andThen (andThen x f) g = andThen x fun a => andThen (f a) g := by
  funext w
  unfold andThen
  cases x w <;> rfl

/-! ## Silent evaluations -/

/-- Nothing happens, and no scope changes. -/
def Silent {α : Type} (x : Eval α) : Prop := ∀ w, x.Gives w fun es _ w' => es = [] ∧ w'.store = w.store

theorem silent_pure (a : α) : Silent (pure a) := fun _ => gives_pure ⟨rfl, rfl⟩

theorem silent_made (make : Identity → Value) : Silent (identity >>= fun id => pure (make id)) := fun _ =>
  gives_made ⟨rfl, rfl⟩

theorem silent_lookup (s : ScopeId) (name : String) : Silent (lookup s name) := fun _ => gives_lookup ⟨rfl, rfl⟩

theorem Silent.bind {x : Eval α} {f : α → Eval β} (hx : x.Silent) (hf : ∀ a, (f a).Silent) : (x >>= f).Silent :=
  fun w => (hx w).bind fun es a w' ⟨hes, hstore⟩ => (hf a w').imp fun es' b w'' ⟨hes', hstore'⟩ =>
    ⟨by rw [hes, hes', List.append_nil], hstore'.trans hstore⟩

instance : LawfulMonad Eval := LawfulMonad.mk' Eval id_map (fun _ _ => rfl) andThen_assoc

theorem ite_bind {α β : Type} {c : Prop} [Decidable c] (x y : Eval α) (f : α → Eval β) :
    (if c then x else y) >>= f = if c then x >>= f else y >>= f := by
  split <;> rfl

end Eval

/-! ## Submissions -/

namespace Session

variable (session : Session) (settings : Settings) {source : String}

/-- The run of the program of a source. -/
def run (source : String) : Option Value × World :=
  (Eval.evaluate settings.nesting (.program (parse source).program) session.top).run session.world

/-- A source with diagnostics is not run. -/
theorem submit_of_errors (h : (parse source).errors ≠ []) : session.submit settings source =
    ⟨.rejected (parse source).errors, printed ((parse source).trace settings.debug), session⟩ := by
  unfold submit
  simp [h]

theorem submit_of_no_errors (h : (parse source).errors = []) : session.submit settings source =
    ⟨((session.run settings source).1.map Verdict.value).getD .overflow,
      printed ((parse source).trace settings.debug) ++ (session.run settings source).2.output settings.debug,
      ⟨(session.run settings source).2, session.top⟩⟩ := by
  unfold submit run
  simp [h]

theorem submit_rejected (h : (parse source).errors ≠ []) : (session.submit settings source).session = session := by
  rw [submit_of_errors _ _ h]

theorem submit_accepted (h : (parse source).errors = []) :
    (session.submit settings source).session = ⟨(session.run settings source).2, session.top⟩ := by
  rw [submit_of_no_errors _ _ h]

theorem verdict_accepted (h : (parse source).errors = []) :
    (session.submit settings source).verdict = ((session.run settings source).1.map Verdict.value).getD .overflow := by
  rw [submit_of_no_errors _ _ h]

end Session

end Monkey
