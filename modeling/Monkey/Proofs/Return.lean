import Monkey.Proofs.Objects
import Monkey.Proofs.Unwinding
/-!
# Returned values stay out of the data

If no `return` stands in an `if` that is an operand, a returned value is nowhere but on its way out: it is not bound, no
array or hash holds it, and it is the operand of nothing (`Eval.return_leaves_activation`).  The evaluations that the
rules put together say this under a proviso: that no value of theirs has surfaced as an operand (`Event.Leaks`), or is
just about to (`Event.Dangles`).
-/
namespace Monkey

/-! ## Plain values -/

namespace Value

/-- No returned value is a part of the value. -/
def Plain (v : Value) : Prop := ∀ id u, ¬ v.HasPart (.ret id u)

theorem Plain.held {v u : Value} (h : v.Plain) (hu : u ∈ v.held) : u.Plain := fun id r hr => h id r (.held hu hr)

theorem plain_of_held {v : Value} (hv : ∀ id u, v ≠ .ret id u) (h : ∀ u ∈ v.held, u.Plain) : v.Plain := by
  intro id r hr
  cases hr with
  | self => exact hv id r rfl
  | held hu hp => exact h _ hu id r hp

theorem plain_of_identity? {v : Value} (h : v.identity? = none) : v.Plain :=
  plain_of_held (fun id u hv => by rw [hv] at h; cases h) (by simp [held_of_identity? h])

theorem plain_of_isError {v : Value} (h : v.isError = true) : v.Plain := by
  cases v with
  | error id f => exact plain_of_held nofun nofun
  | _ => cases h

theorem plain_array {id : Identity} {elements : List Value} (h : ∀ v ∈ elements, v.Plain) : (array id elements).Plain :=
  plain_of_held nofun h

theorem plain_hash {id : Identity} {pairs : List (Key × Value)} (h : ∀ kv ∈ pairs, kv.2.Plain) :
    (hash id pairs).Plain := by
  refine plain_of_held nofun fun u hu => ?_
  obtain ⟨kv, hkv, rfl⟩ := List.mem_map.1 hu
  exact h kv hkv

theorem Plain.unwrap {v : Value} (h : v.Plain) : v.unwrap.Plain := by
  rcases v.unwrap_cases with hv | hv
  · rwa [hv]
  · exact h.held hv

end Value

namespace Event

/-! ## Values that surface -/

/-- A `return` is executed, and its value surfaces as an operand. -/
def Leaks (es : List Event) : Prop :=
  ∃ pre pos value t id u post, es = pre ++ .leave (.stmt (.ret pos value)) t (.ret id u) :: post ∧
    Surfaces t (.ret id u) post

/-- A `return` is executed. -/
def isReturn : Event → Bool
  | leave (.stmt (.ret _ _)) _ (.ret _ _) => true
  | _ => false

/-- Something is entered in the scope. -/
def enters (t : ScopeId) : Event → Bool
  | enter _ t' => t' == t
  | _ => false

theorem enters_iff {t : ScopeId} {e : Event} : e.enters t = true ↔ ∃ nd, e = .enter nd t := by
  cases e <;> simp [enters]

/-- Whether somewhere an expression is left with a returned value and the next event is no statement's end. -/
def anySurfaces : List Event → Bool
  | leave (.expr _) _ (.ret _ _) :: next :: more => decide (¬ next.EndsStatement) || anySurfaces (next :: more)
  | _ :: more => anySurfaces more
  | [] => false

theorem anySurfaces_cons {es : List Event} (h : anySurfaces es = true) (e : Event) : anySurfaces (e :: es) = true := by
  cases es with
  | nil => cases h
  | cons next more =>
    unfold anySurfaces
    split
    · simp_all
    · simp_all
    · simp_all

theorem anySurfaces_of_leaks {es : List Event} (h : Leaks es) : anySurfaces es = true := by
  obtain ⟨pre, pos, value, t, id, u, _, rfl, passed, pos', c, k, a, next, more, rfl, -, hnext⟩ := h
  have hmore : ∀ before : List Event,
      anySurfaces (before ++ .leave (.expr (.cond pos' c k a)) t (.ret id u) :: next :: more) = true := by
    intro before
    induction before with
    | nil => simp [anySurfaces, hnext]
    | cons e before ih => exact anySurfaces_cons ih e
  simpa using hmore (pre ++ .leave (.stmt (.ret pos value)) t (.ret id u) :: passed)

/-- A `return` of the scope is executed, and its value, which is plain but for the wrapping, handed up to the last
event. -/
def Explains (s : ScopeId) (v : Value) (es : List Event) : Prop :=
  ∃ pre pos value id u post, v = .ret id u ∧ u.Plain ∧ es = pre ++ .leave (.stmt (.ret pos value)) s v :: post ∧
    ∀ e ∈ post, e.Passes s v

/-- The last event leaves an `if` with a returned value. -/
def Dangles (s : ScopeId) (v : Value) (es : List Event) : Prop :=
  ∃ es₁ pos condition consequence alternative,
    es = es₁ ++ [.leave (.expr (.cond pos condition consequence alternative)) s v] ∧ Explains s v es₁

variable {s : ScopeId} {v : Value} {es es' : List Event}

theorem Leaks.prepend (h : Leaks es') (es : List Event) : Leaks (es ++ es') := by
  obtain ⟨pre, pos, value, t, id, u, post, rfl, hpost⟩ := h
  exact ⟨es ++ pre, pos, value, t, id, u, post, by simp, hpost⟩

theorem Leaks.append (h : Leaks es) (es' : List Event) : Leaks (es ++ es') := by
  obtain ⟨pre, pos, value, t, id, u, post, rfl, hpost⟩ := h
  exact ⟨pre, pos, value, t, id, u, post ++ es', by simp, hpost.append⟩

theorem Explains.prepend (h : Explains s v es') (es : List Event) : Explains s v (es ++ es') := by
  obtain ⟨pre, pos, value, id, u, post, hv, hu, rfl, hpost⟩ := h
  exact ⟨es ++ pre, pos, value, id, u, post, hv, hu, by simp, hpost⟩

theorem Explains.leave (h : Explains s v es) (nd : Node) : Explains s v (es ++ [.leave nd s v]) := by
  obtain ⟨pre, pos, value, id, u, post, hv, hu, rfl, hpost⟩ := h
  refine ⟨pre, pos, value, id, u, post ++ [.leave nd s v], hv, hu, by simp, fun e he => ?_⟩
  rcases List.mem_append.1 he with he | he
  · exact hpost e he
  · exact ⟨nd, List.mem_singleton.1 he⟩

theorem Explains.unwrap (h : Explains s v es) : v.unwrap.Plain := by
  obtain ⟨_, _, _, id, u, _, rfl, hu, -, -⟩ := h
  exact hu

theorem Explains.isSignal (h : Explains s v es) : v.isSignal = true := by
  obtain ⟨_, _, _, id, u, _, rfl, -, -, -⟩ := h
  rfl

theorem Dangles.prepend (h : Dangles s v es') (es : List Event) : Dangles s v (es ++ es') := by
  obtain ⟨es₁, pos, c, k, a, rfl, hes₁⟩ := h
  exact ⟨es ++ es₁, pos, c, k, a, by simp, hes₁.prepend es⟩

theorem Dangles.explains (h : Dangles s v es) : Explains s v es := by
  obtain ⟨es₁, pos, c, k, a, rfl, hes₁⟩ := h
  exact hes₁.leave _

/-- What comes next makes the `if` an operand. -/
theorem Dangles.leaks {next : Event} {more : List Event} (h : Dangles s v es) (hnext : ¬ next.EndsStatement) :
    Leaks (es ++ next :: more) := by
  obtain ⟨_, pos, c, k, a, rfl, pre, pos', value, id, u, post, rfl, -, rfl, hpost⟩ := h
  exact ⟨pre, pos', value, s, id, u, post ++ .leave (.expr (.cond pos c k a)) s (.ret id u) :: next :: more, by simp,
    post, pos, c, k, a, next, more, rfl, hpost, hnext⟩

/-- A value has surfaced as an operand, or is about to. -/
def Trouble (s : ScopeId) (es : List Event) : Prop := Leaks es ∨ ∃ v, Dangles s v es

theorem Trouble.prepend (h : Trouble s es') (es : List Event) : Trouble s (es ++ es') :=
  h.imp (fun h => h.prepend es) fun ⟨v, h⟩ => ⟨v, h.prepend es⟩

theorem Trouble.append (h : Trouble s es) (hes' : Opens es') : Trouble s (es ++ es') := by
  rcases h with h | ⟨v, h⟩
  · exact .inl (h.append es')
  · cases es' with
    | nil => exact .inr ⟨v, by rwa [List.append_nil]⟩
    | cons next more => exact .inl (h.leaks fun ⟨_, t, u, heq⟩ => hes' next rfl ⟨_, t, u, heq⟩)

theorem Trouble.leave (h : Trouble s es) (e : Expr) (v : Value) : Leaks (es ++ [.leave (.expr e) s v]) := by
  rcases h with h | ⟨u, h⟩
  · exact h.append _
  · exact h.leaks (not_endsStatement_expr e s v)

/-! ## What nodes give -/

/-- What a node gives: a plain value, or one that is on its way out of a `return`. -/
def Result (s : ScopeId) : Node → List Event → Value → Prop
  | .program _, _, v => v.Plain
  | .expr _, es, v => v.Plain ∨ Dangles s v es
  | _, es, v => v.Plain ∨ Explains s v es

theorem Result.prepend {nd : Node} (h : Result s nd es' v) (es : List Event) : Result s nd (es ++ es') v := by
  cases nd with
  | program p => exact h
  | expr e => exact h.imp id fun h => h.prepend es
  | block b => exact h.imp id fun h => h.prepend es
  | stmt st => exact h.imp id fun h => h.prepend es

theorem Result.unwrap {nd : Node} (h : Result s nd es v) : v.unwrap.Plain := by
  cases nd with
  | program p => exact Value.Plain.unwrap h
  | expr e => exact h.elim Value.Plain.unwrap fun h => h.explains.unwrap
  | block b => exact h.elim Value.Plain.unwrap Explains.unwrap
  | stmt st => exact h.elim Value.Plain.unwrap Explains.unwrap

/-- What a node has to give when it is about to be left.  An expression can have a returned value from an `if` only, and
a `return` wraps one itself. -/
def Offers (s : ScopeId) : Node → List Event → Value → Prop
  | .program _, _, v => v.Plain
  | .block _, es, v => v.Plain ∨ Explains s v es
  | .stmt st, es, v =>
    v.Plain ∨ Explains s v es ∨ (∃ pos value, st = .ret pos value) ∧ ∃ id u, v = .ret id u ∧ u.Plain
  | .expr e, es, v => v.Plain ∨ Explains s v es ∧ ∃ pos c k a, e = .cond pos c k a

theorem Offers.prepend {nd : Node} (h : Offers s nd es' v) (es : List Event) : Offers s nd (es ++ es') v := by
  cases nd with
  | program p => exact h
  | block b => exact h.imp id fun h => h.prepend es
  | stmt st => exact h.imp id fun h => h.imp (fun h => h.prepend es) id
  | expr e => exact h.imp id fun ⟨hv, he⟩ => ⟨hv.prepend es, he⟩

theorem Offers.leave {nd : Node} (h : Offers s nd es v) : Result s nd (es ++ [.leave nd s v]) v := by
  cases nd with
  | program p => exact h
  | block b => exact h.imp id fun h => h.leave _
  | stmt st =>
    rcases h with hv | hv | ⟨⟨pos, value, rfl⟩, id, u, rfl, hu⟩
    · exact .inl hv
    · exact .inr (hv.leave _)
    · exact .inr ⟨es, pos, value, id, u, [], rfl, hu, rfl, fun _ h => nomatch h⟩
  | expr e =>
    rcases h with hv | ⟨hv, pos, c, k, a, rfl⟩
    · exact .inl hv
    · exact .inr ⟨es, pos, c, k, a, rfl, hv⟩

/-- After these events: what is bound is plain, and a node is left with what it can give. -/
def SoundAfter (es : List Event) : Event → Prop
  | bind _ _ v => v.Plain
  | leave nd s v => Result s nd (es ++ [.leave nd s v]) v
  | _ => True

/-- All bound values are plain, and all nodes are left with what they can give. -/
def Sound (es : List Event) : Prop := ∀ pre e post, es = pre ++ e :: post → SoundAfter pre e

theorem SoundAfter.prepend {e : Event} (h : SoundAfter es' e) (es : List Event) : SoundAfter (es ++ es') e := by
  cases e with
  | leave nd s v =>
    simp only [SoundAfter, List.append_assoc]
    exact Result.prepend h es
  | _ => exact h

theorem sound_nil : Sound [] := fun pre e post h => by simp at h

theorem Sound.concat {e : Event} (h : Sound es) (he : SoundAfter es e) : Sound (es ++ [e]) := by
  intro pre e' post heq
  rcases split_concat heq with ⟨rfl, rfl, -⟩ | ⟨post₁, -, rfl⟩
  · exact he
  · exact h pre e' post₁ rfl

theorem Sound.append (h : Sound es) (h' : Sound es') : Sound (es ++ es') := by
  intro pre e post heq
  rcases List.append_eq_append_iff.1 heq with ⟨rest, rfl, hes'⟩ | ⟨rest, hes, hpost⟩
  · exact (h' rest e post hes').prepend es
  · cases rest with
    | nil =>
      rw [List.append_nil] at hes
      rw [← List.append_nil pre]
      exact (h' [] e post hpost.symm).prepend pre
    | cons e' rest =>
      obtain ⟨rfl, -⟩ := List.cons.inj hpost
      exact h pre e rest hes

theorem sound_singleton {e : Event} (h : SoundAfter [] e) : Sound [e] := sound_nil.concat h

/-- An expression left with a returned value is the value of a statement, unless a value has surfaced as an operand. -/
theorem Sound.ends_statement {es pre more : List Event} {e : Expr} {t : ScopeId} {id : Identity} {u : Value}
    {next : Event} (hsound : Sound es) (hleaks : ¬ Leaks es)
    (heq : es = pre ++ .leave (.expr e) t (.ret id u) :: next :: more) : next.EndsStatement := by
  by_contra hnext
  rcases hsound pre _ _ heq with hplain | hdangles
  · exact hplain id u (.self _)
  · apply hleaks
    have h : Leaks (pre ++ [.leave (.expr e) t (.ret id u)] ++ next :: more) := hdangles.leaks hnext
    rw [heq]
    simpa using h

/-- A property of events that more events before and behind do not end. -/
class Lasting (T : List Event → Prop) : Prop where
  prepend : ∀ es es', T es' → T (es ++ es')
  append : ∀ es es', T es → Opens es' → T (es ++ es')

instance : Lasting Leaks := ⟨fun es _ h => h.prepend es, fun _ es' h _ => h.append es'⟩

instance (s : ScopeId) : Lasting (Trouble s) := ⟨fun es _ h => h.prepend es, fun _ _ h h' => h.append h'⟩

end Event

namespace Eval

open Event

/-- Given `H`, and if all bound values are plain: either `T` holds of the events, or all is plain still, and `R` holds
of the events and the result.  In any case the events open with no leave. -/
structure Spares {α : Type} (T : List Event → Prop) (H : Prop) (R : List Event → α → Prop) (x : Eval α) : Prop where
  opens : ∀ w, x.Gives w fun es _ _ => Opens es
  spares : H → ∀ w, w.All 0 Value.Plain →
    x.Gives w fun es a w' => T es ∨ w'.All 0 Value.Plain ∧ Sound es ∧ R es a

section

variable {α β : Type} {T : List Event → Prop} {H : Prop} {R : List Event → α → Prop} {x : Eval α}

theorem Spares.imp {T' : List Event → Prop} {R' : List Event → α → Prop} (hx : Spares T H R x)
    (hT : ∀ es, T es → T' es) (hR : ∀ es a, R es a → R' es a) : Spares T' H R' x :=
  ⟨hx.opens, fun h w hw => (hx.spares h w hw).imp fun es a _ h' =>
    h'.imp (hT es) fun ⟨hall, hes, ha⟩ => ⟨hall, hes, hR es a ha⟩⟩

theorem Spares.given {G : Prop} (hx : Spares T H R x) (h : G → H) : Spares T G R x :=
  ⟨hx.opens, fun hG => hx.spares (h hG)⟩

/-- A part of which `R` holds, and what follows. -/
theorem Spares.andThen [Lasting T] {S : List Event → β → Prop} {U : α → List Event → β → Prop} {f : α → Eval β}
    (hx : Spares T H R x) (hf : ∀ a, Spares T (H ∧ ∃ es, R es a) (U a) (f a))
    (hS : ∀ es a es' b, R es a → U a es' b → S (es ++ es') b) : Spares T H S (x >>= f) where
  opens w := (hx.opens w).bind fun _ a w' hes => ((hf a).opens w').imp fun _ _ _ hes' => hes.append hes'
  spares h w hw := by
    refine (hx.spares h w hw).bind fun es a w' hes => ?_
    rcases hes with htrouble | ⟨hall, hsound, ha⟩
    · exact ((hf a).opens w').imp fun es' _ _ hes' => .inl (Lasting.append es es' htrouble hes')
    · refine ((hf a).spares ⟨h, es, ha⟩ w' hall).imp fun es' b w'' hes' => ?_
      rcases hes' with htrouble | ⟨hall', hsound', hb⟩
      · exact .inl (Lasting.prepend es es' htrouble)
      · exact .inr ⟨hall', hsound.append hsound', hS es a es' b ha hb⟩

/-- A part with a result of which `P` holds, and what follows. -/
theorem Spares.bind [Lasting T] {P : α → Prop} {S : List Event → β → Prop} {f : α → Eval β}
    (hx : Spares T H (fun _ => P) x) (hS : ∀ es es' b, S es' b → S (es ++ es') b)
    (hf : ∀ a, Spares T (H ∧ P a) S (f a)) : Spares T H S (x >>= f) :=
  hx.andThen (fun a => (hf a).given fun ⟨h, _, ha⟩ => ⟨h, ha⟩) fun es _ es' b _ hb => hS es es' b hb

/-- Of the results alone. -/
theorem Spares.then [Lasting T] {P : α → Prop} {S : β → Prop} {f : α → Eval β} (hx : Spares T H (fun _ => P) x)
    (hf : ∀ a, Spares T (H ∧ P a) (fun _ => S) (f a)) : Spares T H (fun _ => S) (x >>= f) :=
  hx.bind (fun _ _ _ h => h) hf

theorem spares_ite {c : Prop} [Decidable c] {y : Eval α} (hx : Spares T H R x) (hy : Spares T H R y) :
    Spares T H R (if c then x else y) := by
  split
  · exact hx
  · exact hy

theorem Spares.of_silent (hx : x.Silent) (h : H → ∀ w, w.All 0 Value.Plain → x.Gives w fun _ a _ => R [] a) :
    Spares T H R x where
  opens w := (hx w).imp fun es _ _ ⟨hes, _⟩ => by
    subst hes
    exact fun _ he => nomatch he
  spares hH w hw := ((hx w).and (h hH w hw)).imp fun es a w' ⟨⟨hes, hstore⟩, ha⟩ => by
    subst hes
    exact .inr ⟨⟨Nat.zero_le _, by rw [hstore]; exact hw.bound⟩, sound_nil, ha⟩

theorem spares_pure {a : α} (h : H → R [] a) : Spares T H R (pure a) :=
  .of_silent (silent_pure a) fun hH _ _ => gives_pure (h hH)

theorem spares_openScope_bind {f : ScopeId → Eval α} (outer : Option ScopeId) (hf : ∀ t, Spares T H R (f t)) :
    Spares T H R (openScope outer >>= f) where
  opens _ := gives_openScope_bind ((hf _).opens _)
  spares h _ hw := gives_openScope_bind ((hf _).spares h _ (hw.push outer))

/-- An evaluation with a single event, that leaves no node. -/
theorem spares_single {e : Event} {x : Eval Unit} (hx : ∀ w, x.Gives w fun es _ _ => es = [e]) (he : ¬ e.IsLeave)
    (hplain : H → SoundAfter [] e) (hall : H → Keeps 0 Value.Plain (fun _ => True) x) :
    Spares T H (fun _ _ => True) x where
  opens w := (hx w).imp fun es _ _ hes => by
    subst hes
    intro e' he'
    cases he'
    exact he
  spares h w hw := ((hx w).and (hall h w hw)).imp fun es _ w' ⟨hes, hw', _⟩ => by
    subst hes
    exact .inr ⟨hw', sound_singleton (hplain h), trivial⟩

theorem spares_print (line : String) : Spares T H (fun _ _ => True) (emit (.print line)) :=
  spares_single (fun _ => gives_emit rfl) (fun ⟨_, _, _, h⟩ => nomatch h) (fun _ => trivial) fun _ => keeps_emit _

theorem spares_bindName (s : ScopeId) (name : String) (v : Value) :
    Spares T v.Plain (fun _ _ => True) (bindName s name v) :=
  spares_single (fun _ => gives_bindName rfl) (fun ⟨_, _, _, h⟩ => nomatch h) id fun hv => keeps_bindName s name hv

/-- What is made of plain values is plain. -/
theorem plain_answers {given : List Value} {x : Eval Value} (h : Answers given x) (hgiven : ∀ v ∈ given, v.Plain)
    (w : World) : x.Gives w fun _ v _ => v.Plain := by
  cases h with
  | plain hv => exact gives_pure (Value.plain_of_identity? hv)
  | part hu hv => exact gives_pure ((hgiven _ hu).held hv)
  | fault f => exact gives_made (Value.plain_of_isError rfl)
  | array hvs =>
    refine gives_made (Value.plain_array fun v hv => ?_)
    rcases hvs v hv with hv | ⟨u, hu, hv⟩
    · exact hgiven v hv
    · exact (hgiven u hu).held hv

theorem plain_named (s : ScopeId) (name : String) {w : World} (hw : w.All 0 Value.Plain) :
    (named s name).Gives w fun _ v _ => v.Plain := by
  refine (keeps_lookup s name w hw).bind fun es v? w' ⟨_, hv?⟩ => ?_
  split
  · exact gives_pure (hv? _ rfl)
  · split
    · exact gives_pure (Value.plain_of_identity? rfl)
    · exact gives_made (Value.plain_of_isError rfl)

theorem spares_fault (f : Fault) : Spares T H (fun _ v => v.Plain) (fault f) :=
  .of_silent (silent_made _) fun _ _ _ => gives_made (Value.plain_of_isError rfl)

theorem spares_returned (s : ScopeId) (pos : Pos) (value : Option Expr) (v : Value) :
    Spares T v.Plain (Offers s (.stmt (.ret pos value))) (returned v) :=
  .of_silent (silent_made _) fun hv _ _ => gives_made (.inr (.inr ⟨⟨pos, value, rfl⟩, _, v, rfl, hv⟩))

end

/-! ## Calls -/

section

variable {T : List Event → Prop} [Lasting T]

theorem spares_printAll : ∀ vs : List Value, Spares T True (fun _ _ => True) (Builtin.printAll vs) := by
  intro vs
  induction vs with
  | nil => exact spares_pure fun _ => trivial
  | cons v vs ih => exact (spares_print _).then fun _ => ih.given fun _ => trivial

theorem spares_callBuiltin (f : Builtin) (args : List Value) :
    Spares T (∀ v ∈ args, v.Plain) (fun _ v => v.Plain) (f.call args) := by
  rcases f.call_cases args with h | h
  · rw [h]
    refine ((spares_printAll args).given fun _ => trivial).then fun _ => ?_
    exact spares_pure fun _ => Value.plain_of_identity? rfl
  · exact .of_silent (silent_answers h) fun hargs w _ => plain_answers h hargs w

theorem spares_bindParams (s : ScopeId) : ∀ (params : List Ident) (args : List Value),
    Spares T (∀ v ∈ args, v.Plain) (fun _ _ => True) (bindParams s params args)
  | [], _ => spares_pure fun _ => trivial
  | p :: params, args => by
    -- a missing argument is null
    have hv : (∀ v ∈ args, v.Plain) → (args.head?.getD .null).Plain := by
      cases args with
      | nil => exact fun _ => Value.plain_of_identity? rfl
      | cons v rest => exact fun h => h v List.mem_cons_self
    refine ((spares_bindName s p.name _).given hv).then fun _ => ?_
    exact (spares_bindParams s params args.tail).given fun h v hv => h.1 v (List.mem_of_mem_tail hv)

end

/-! ## Expressions -/

section

variable {ev : Below} (hev : ∀ (nd : Node) (s : ScopeId), Spares Leaks True (Result s nd) (ev nd s))
include hev

theorem spares_apply (s : ScopeId) (callee : Value) (args : List Value) :
    Spares (Trouble s) (∀ v ∈ args, v.Plain) (fun _ v => v.Plain) (apply ev callee args) := by
  cases callee with
  | builtin f => exact spares_callBuiltin f args
  | fn id params body scope =>
    rw [apply_fn]
    refine spares_openScope_bind _ fun t => ?_
    refine (spares_bindParams t params args).then fun _ => ?_
    -- the body may be left with a returned value: the call takes the wrapping off
    have hbody : Spares (Trouble s) True (fun _ v => v.unwrap.Plain) (ev (.block body) t) :=
      (hev (.block body) t).imp (fun _ => .inl) fun es v h => h.elim Value.Plain.unwrap Explains.unwrap
    exact (hbody.given fun _ => trivial).then fun v => spares_pure fun h => h.2
  | _ => exact .of_silent (silent_made _) fun _ _ _ => gives_made (Value.plain_of_isError rfl)

/-- An operand is plain, or there is trouble. -/
theorem spares_operand (s : ScopeId) (e : Expr) : Spares (Trouble s) True (fun _ v => v.Plain) (ev (.expr e) s) where
  opens := (hev (.expr e) s).opens
  spares _ w hw := ((hev (.expr e) s).spares trivial w hw).imp fun es v w' h => by
    rcases h with hleaks | ⟨hall, hplain, hv | hv⟩
    · exact .inl (.inl hleaks)
    · exact .inr ⟨hall, hplain, hv⟩
    · exact .inl (.inr ⟨v, hv⟩)

theorem spares_expressions (s : ScopeId) : ∀ es : List Expr,
    Spares (Trouble s) True (fun _ => Yields (fun vs => ∀ v ∈ vs, v.Plain) Value.Plain) (expressions ev s es) := by
  intro es
  induction es with
  | nil => exact spares_pure fun _ => List.forall_mem_nil _
  | cons e es ih =>
    refine (spares_operand hev s e).then fun v => spares_ite (spares_pure fun h => h.2) ?_
    refine (ih.given fun _ => trivial).then fun r => ?_
    cases r with
    | error u => exact spares_pure fun h => h.2
    | ok us =>
      refine spares_pure fun h u hu => ?_
      rcases List.mem_cons.1 hu with rfl | hu
      · exact h.1.2
      · exact h.2 u hu

theorem spares_pairs (s : ScopeId) : ∀ (entries : List (Expr × Expr)) (done : List (Key × Value)),
    Spares (Trouble s) (∀ kv ∈ done, kv.2.Plain) (fun _ => Yields (fun kvs => ∀ kv ∈ kvs, kv.2.Plain) Value.Plain)
      (pairs ev s done entries)
  | [], _ => spares_pure id
  | (key, value) :: entries, done => by
    refine ((spares_operand hev s key).given fun _ => trivial).then fun k => spares_ite (spares_pure fun h => h.2) ?_
    split
    · exact (spares_fault _).then fun _ => spares_pure fun h => h.2
    · refine ((spares_operand hev s value).given fun _ => trivial).then fun v =>
        spares_ite (spares_pure fun h => h.2) ?_
      refine (spares_pairs s entries _).given fun h kv hkv => ?_
      rcases Dict.mem_insert hkv with rfl | hkv
      · exact h.2
      · exact h.1.1 kv hkv

theorem spares_finish (s : ScopeId) (e : Expr) (vs : List Value) :
    Spares (Trouble s) (∀ v ∈ vs, v.Plain) (Offers s (.expr e)) (finish ev s e vs) := by
  have h : Finishes ev s e vs (finish ev s e vs) := finishes_finish e vs
  generalize finish ev s e vs = x at h ⊢
  cases h with
  | named => exact .of_silent (silent_named s _) fun _ w hw => (plain_named s _ hw).imp fun _ _ _ => .inl
  | answer h => exact .of_silent (silent_answers h) fun hvs w _ => (plain_answers h hvs w).imp fun _ _ _ => .inl
  | function => exact .of_silent (silent_made _) fun _ _ _ => gives_made (.inl (Value.plain_of_held nofun nofun))
  | branch he =>
    refine ((hev (.block _) s).imp (fun _ => .inl) fun es v hv => ?_).given fun _ => trivial
    exact hv.imp id fun hv => ⟨hv, _, _, _, _, he⟩
  | call _ heq =>
    subst heq
    exact ((spares_apply hev s _ _).imp (fun _ h => h) fun _ _ => .inl).given fun h v hv =>
      h v (List.mem_cons_of_mem _ hv)

theorem spares_expr (s : ScopeId) (e : Expr) : Spares (Trouble s) True (Offers s (.expr e)) (expr ev s e) := by
  -- a hash literal checks each key before it goes on, so its operands are not a plain list
  by_cases he : ∃ pos entries, e = .hash pos entries
  · obtain ⟨pos, entries, rfl⟩ := he
    have hpairs := (spares_pairs hev s entries []).given (G := True) fun _ _ h => nomatch h
    refine hpairs.bind (fun es _ _ h => h.prepend es) fun r => ?_
    cases r with
    | error v => exact spares_pure fun h => .inl h.2
    | ok kvs => exact .of_silent (silent_made _) fun h _ _ => gives_made (.inl (Value.plain_hash h.2))
  · rw [expr_eq_finish fun pos entries h => he ⟨pos, entries, h⟩]
    refine (spares_expressions hev s e.operands).bind (fun es _ _ h => h.prepend es) fun r => ?_
    cases r with
    | error v => exact spares_pure fun h => .inl h.2
    | ok vs => exact (spares_finish hev s e vs).given fun h => h.2

/-! ## Statements -/

omit hev in
/-- A returned value ends the statements that it comes out of. -/
theorem spares_unlessSignal {s : ScopeId} {R : List Event → Value → Prop} {x : Eval Value} {f : Value → Eval Value}
    (hx : Spares Leaks True (fun es v => v.Plain ∨ Explains s v es) x) (hf : ∀ v, Spares Leaks v.Plain R (f v))
    (hR : ∀ es v, v.Plain ∨ Explains s v es → R es v) (hprepend : ∀ es es' v, R es' v → R (es ++ es') v) :
    Spares Leaks True R (x >>= fun v => if v.isSignal then pure v else f v) := by
  refine hx.andThen (U := fun v es' u => es' = [] ∧ u = v ∨ R es' u) (fun v => ?_) ?_
  · by_cases hv : v.isSignal = true
    · rw [if_pos hv]
      exact spares_pure fun _ => .inl ⟨rfl, rfl⟩
    · rw [if_neg hv]
      refine ((hf v).imp (fun _ h => h) fun _ _ => .inr).given ?_
      rintro ⟨-, es, hplain | hes⟩
      · exact hplain
      · exact absurd hes.isSignal hv
  · rintro es v es' u hv (⟨rfl, rfl⟩ | hu)
    · rw [List.append_nil]
      exact hR es u hv
    · exact hprepend es es' u hu

/-- The value of an expression, as a statement sees it. -/
theorem spares_value (s : ScopeId) (e : Expr) :
    Spares Leaks True (fun es v => v.Plain ∨ Explains s v es) (ev (.expr e) s) :=
  (hev (.expr e) s).imp (fun _ h => h) fun _ _ h => h.imp id Dangles.explains

theorem spares_statements (s : ScopeId) : ∀ (ss : List Stmt) (last : Value),
    Spares Leaks last.Plain (fun es v => v.Plain ∨ Explains s v es) (statements ev s last ss)
  | [], _ => spares_pure .inl
  | st :: ss, _ => (spares_unlessSignal (hev (.stmt st) s) (fun v => spares_statements s ss v) (fun _ _ h => h)
      fun es _ _ h => h.imp id fun h => h.prepend es).given fun _ => trivial

theorem spares_stmt (s : ScopeId) (st : Stmt) : Spares Leaks True (Offers s (.stmt st)) (stmt ev s st) := by
  have hvalue : ∀ es v, v.Plain ∨ Explains s v es → Offers s (.stmt st) es v := fun _ _ h => h.imp id .inl
  cases st with
  | expr token e => exact (spares_value hev s e).imp (fun _ h => h) hvalue
  | bind pos name e =>
    refine spares_unlessSignal (spares_value hev s e) (fun v => ?_) hvalue fun es _ _ h => h.prepend es
    refine (spares_bindName s name.name v).bind (P := fun _ => True) (fun es _ _ h => h.prepend es) fun _ => ?_
    exact spares_pure fun _ => .inl (Value.plain_of_identity? rfl)
  | ret pos value =>
    cases value with
    | none => exact (spares_returned s pos none .null).given fun _ => Value.plain_of_identity? rfl
    | some e =>
      exact spares_unlessSignal (spares_value hev s e) (spares_returned s pos (some e)) hvalue fun es _ _ h =>
        h.prepend es

omit hev in
/-- Between entering a node and leaving it. -/
theorem spares_within (nd : Node) (s : ScopeId) {T : List Event → Prop} {x : Eval Value}
    (hx : Spares T True (Offers s nd) x) (hT : ∀ es v, T es → Leaks (es ++ [.leave nd s v])) :
    Spares Leaks True (Result s nd)
      (emit (.enter nd s) >>= fun _ => x >>= fun v => emit (.leave nd s v) >>= fun _ => pure v) := by
  have hbody : ∀ w, w.All 0 Value.Plain → (x >>= fun v => emit (.leave nd s v) >>= fun _ => pure v).Gives w
      fun es v w' => Leaks es ∨ w'.All 0 Value.Plain ∧ Sound es ∧ Result s nd es v := by
    intro w hw
    refine (hx.spares trivial w hw).bind fun es v w' hes => ?_
    refine (gives_emit (D := fun es' _ w'' => es' = [.leave nd s v] ∧ w''.store = w'.store) ⟨rfl, rfl⟩).bind ?_
    rintro _ _ w'' ⟨rfl, hstore⟩
    refine gives_pure ?_
    rw [List.append_nil]
    rcases hes with htrouble | ⟨hall, hsound, hv⟩
    · exact .inl (hT es v htrouble)
    · have hleft : SoundAfter es (.leave nd s v) := hv.leave
      exact .inr ⟨⟨Nat.zero_le _, by rw [hstore]; exact hall.bound⟩, hsound.concat hleft, hv.leave⟩
  have henter : ∀ w, (emit (.enter nd s)).Gives w fun es _ w' => es = [.enter nd s] ∧ w'.store = w.store := fun _ =>
    gives_emit ⟨rfl, rfl⟩
  constructor
  · intro w
    refine (henter w).bind fun es _ w' ⟨hes, _⟩ => (hx.opens w').bind fun es' v w'' _ => ?_
    refine (gives_emit (D := fun _ _ _ => True) trivial).bind fun es'' _ _ _ => gives_pure ?_
    rw [hes]
    rintro e he ⟨nd', t, u, rfl⟩
    cases he
  · intro _ w hw
    refine (henter w).bind fun es _ w' ⟨hes, hstore⟩ => ?_
    refine (hbody w' ⟨Nat.zero_le _, by rw [hstore]; exact hw.bound⟩).imp fun es' v w'' h => ?_
    rcases h with hleaks | ⟨hall, hsound, hv⟩
    · exact .inl (hleaks.prepend es)
    · refine .inr ⟨hall, .append ?_ hsound, hv.prepend es⟩
      rw [hes]
      exact sound_singleton trivial

end

/-- **All values are plain, or some value has surfaced as an operand.** -/
theorem spares_evaluate : ∀ (n : Nat) (nd : Node) (s : ScopeId), Spares Leaks True (Result s nd) (evaluate n nd s)
  | 0, _, _ => ⟨fun _ => gives_overflow, fun _ _ _ => gives_overflow⟩
  | n + 1, .program p, s => by
    have hstatements := (spares_statements (spares_evaluate n) s p.statements .null).given (G := True) fun _ =>
      Value.plain_of_identity? rfl
    have hnode : Spares Leaks True (Offers s (.program p))
        (statements (evaluate n) s .null p.statements >>= fun v => pure v.unwrap) := by
      refine (hstatements.imp (fun _ h => h) fun _ v h => h.elim Value.Plain.unwrap Explains.unwrap).then
        (P := fun v : Value => v.unwrap.Plain) fun v => spares_pure fun h => h.2
    exact spares_within (.program p) s hnode fun _ _ h => h.append _
  | n + 1, .block b, s => by
    have hstatements := (spares_statements (spares_evaluate n) s b.statements .null).given (G := True) fun _ =>
      Value.plain_of_identity? rfl
    exact spares_within (.block b) s hstatements fun _ _ h => h.append _
  | n + 1, .stmt st, s => spares_within (.stmt st) s (spares_stmt (spares_evaluate n) s st) fun _ _ h => h.append _
  | n + 1, .expr e, s => spares_within (.expr e) s (spares_expr (spares_evaluate n) s e) fun _ v h => h.leave e v

/-! ## Programs -/

/-- **A `return` leaves its activation**, unless the `if` around it is an operand: the value is handed up to the call,
or to the end of the program, and gives its result, and nothing happens in its scope any more.  If the program does
this with all its `return`s, and no returned value was bound before, then none is ever bound, held by an array or a
hash, or an operand; an expression that is left with one is the value of a statement. -/
theorem return_leaves_activation {n : Nat} {p : Program} {s : Nat} {w w' : World} {v : Value} (hs : s < w.store.size)
    (hrun : (evaluate n (.program p) s).run w = (some v, w')) :
    (∀ (pre post : List Event) (pos : Pos) (value : Option Expr) (t : Nat) (id : Identity) (u : Value),
      w'.events = pre ++ .leave (.stmt (.ret pos value)) t (.ret id u) :: post →
        LeavesActivation p s v t id u post ∨ Surfaces t (.ret id u) post) ∧
    ((∀ (t : Nat) (name : String) (b : Value), (name, b) ∈ w.store.bindings t → b.Plain) → ¬ Leaks w'.events →
      v.Plain ∧
      (∀ (t : Nat) (name : String) (b : Value), (name, b) ∈ w'.store.bindings t → b.Plain) ∧
      (∀ (t : Nat) (name : String) (b : Value), .bind t name b ∈ w'.events → b.Plain) ∧
      (∀ (nd : Node) (t : Nat) (a : Value), .leave nd t a ∈ w'.events → a.unwrap.Plain) ∧
      ∀ (pre post : List Event) (e : Expr) (t : Nat) (id : Identity) (u : Value),
        w'.events = pre ++ .leave (.expr e) t (.ret id u) :: post →
          ∃ st more, post = .leave (.stmt st) t (.ret id u) :: more) := by
  constructor
  · intro pre post pos value t id u hevents
    have hcases := (returned_cases n p (w := { w with log := [] }) hs).of_run hrun
    exact hcases pre post (.ret pos value) t id u hevents
  intro hbound hleaks
  have hspares := ((spares_evaluate n (.program p) s).spares trivial { w with log := [] }
    ⟨Nat.zero_le _, hbound⟩).of_run hrun
  obtain ⟨hall, hsound, hv⟩ := hspares.resolve_left hleaks
  refine ⟨hv, hall.bound, fun t name b hmem => ?_, fun nd t a hmem => ?_, fun pre post e t id u hevents => ?_⟩
  · obtain ⟨pre, post, hevents⟩ := List.append_of_mem hmem
    exact hsound pre _ post hevents
  · obtain ⟨pre, post, hevents⟩ := List.append_of_mem hmem
    exact Result.unwrap (hsound pre _ post hevents)
  · obtain ⟨body, w₁, hbody, hthread, -⟩ := (threads_program n p (w := { w with log := [] }) hs).of_run hrun
    rcases split_concat (hbody.symm.trans hevents) with ⟨-, he, -⟩ | ⟨post, rfl, rfl⟩
    · cases he
    cases post with
    | nil =>
      -- the program is not left right behind an expression
      obtain ⟨st, t', a, h⟩ := hsound.ends_statement hleaks hevents
      cases h
    | cons next more =>
      rcases (List.isChain_cons_cons.1 hthread.chain.right_of_append).1 with ⟨st, rfl⟩ | hnext
      · exact ⟨st, more ++ [.leave (.program p) s v], rfl⟩
      · exact absurd (hsound.ends_statement hleaks hevents) hnext

/-- From an `if` that is the value of a `let`. -/
theorem return_leaves_activation_let :
    ∃ (w' : World) (v u : Value) (pre post : List Event) (pos : Pos) (value : Option Expr) (t : Nat) (id : Identity),
      (evaluate 40 (.program (parse
        "let f = fn(x) \x7b let y = if (x) \x7b return [1] \x7d; puts(2) \x7d; let z = f(true); z").program) 0).run
          Session.start.world = (some v, w') ∧
      w'.events = pre ++ .leave (.stmt (.ret pos value)) t (.ret id u) :: post ∧
      w'.output false = "" ∧ v.render = "[1]" ∧ ¬ Leaks w'.events ∧ v.Plain ∧
      LeavesActivation (parse
        "let f = fn(x) \x7b let y = if (x) \x7b return [1] \x7d; puts(2) \x7d; let z = f(true); z").program
          0 v t id u post := by
  have hfacts : ∃ r : Option Value × World, r = (evaluate 40 (.program (parse
        "let f = fn(x) \x7b let y = if (x) \x7b return [1] \x7d; puts(2) \x7d; let z = f(true); z").program) 0).run
          Session.start.world ∧
      r.1.map Value.render = some "[1]" ∧ r.2.output false = "" ∧ anySurfaces r.2.events = false ∧
      r.2.events.any isReturn = true := ⟨_, rfl, by decide +kernel⟩
  obtain ⟨⟨v?, w'⟩, hrun, hrender, houtput, hsurfaces, hreturn⟩ := hfacts
  obtain ⟨v, rfl, hshown⟩ := Option.map_eq_some_iff.1 hrender
  obtain ⟨e, he, hreturn⟩ := List.any_eq_true.1 hreturn
  obtain ⟨pre, post, hevents⟩ := List.append_of_mem he
  unfold isReturn at hreturn
  split at hreturn
  · rename_i pos value t id u
    have hleaks : ¬ Leaks w'.events := fun h => by rw [anySurfaces_of_leaks h] at hsurfaces; cases hsurfaces
    have hbound : ∀ (t : Nat) (name : String) (b : Value), (name, b) ∈ Session.start.world.store.bindings t → b.Plain :=
      fun t name b hb => by rw [Session.bindings_start] at hb; cases hb
    obtain ⟨hcases, hplain⟩ := return_leaves_activation (by decide) hrun.symm
    obtain ⟨hv, -⟩ := hplain hbound hleaks
    have hleaves := (hcases pre post pos value t id u hevents).resolve_right fun h =>
      hleaks ⟨pre, pos, value, t, id, u, post, hevents, h⟩
    exact ⟨w', v, u, pre, post, pos, value, t, id, hrun.symm, hevents, houtput, hshown, hleaks, hv, hleaves⟩
  · cases hreturn

/-- An array begins with the wrapped `1` that the run of events begins with, and something follows in the scope of the
`return`. -/
def holdsReturned : Value → List Event → Bool
  | .array _ (.ret id (.int m) :: _), .leave (.stmt (.ret _ _)) t (.ret id' (.int n)) :: post =>
    decide (id = id') && decide (m = 1) && decide (n = 1) && post.any (enters t)
  | _, _ => false

theorem of_holdsReturned {v : Value} {es : List Event} (h : holdsReturned v es = true) :
    ∃ (pos : Pos) (value : Option Expr) (t : Nat) (id : Identity) (post : List Event),
      es = .leave (.stmt (.ret pos value)) t (.ret id (.int 1)) :: post ∧ (∃ nd, .enter nd t ∈ post) ∧
      v ≠ .int 1 ∧ v.HasPart (.ret id (.int 1)) := by
  unfold holdsReturned at h
  split at h
  · rename_i a id m rest pos value t id' n post
    simp only [Bool.and_eq_true, decide_eq_true_eq, List.any_eq_true] at h
    obtain ⟨⟨⟨rfl, rfl⟩, rfl⟩, e, he, henter⟩ := h
    obtain ⟨nd, rfl⟩ := enters_iff.1 henter
    exact ⟨pos, value, t, id, post, rfl, ⟨nd, he⟩, nofun, .held List.mem_cons_self (.self _)⟩
  · cases h

/-- A `return` in an array literal: the next element is evaluated, and the call gives an array that holds the wrapped
value. -/
theorem return_surfaces_in_element :
    ∃ (w' : World) (v : Value) (pre post : List Event) (pos : Pos) (value : Option Expr) (t : Nat) (id : Identity),
      (evaluate 40 (.program (parse
        "let f = fn() \x7b [if (true) \x7b return 1 \x7d, puts(\"x\")] \x7d; f()").program) 0).run
          Session.start.world = (some v, w') ∧
      w'.events = pre ++ .leave (.stmt (.ret pos value)) t (.ret id (.int 1)) :: post ∧
      (∃ nd, .enter nd t ∈ post) ∧ w'.output false = "x\n" ∧ v ≠ .int 1 ∧ v.HasPart (.ret id (.int 1)) := by
  have hfacts : ∃ r : Option Value × World, r = (evaluate 40 (.program (parse
        "let f = fn() \x7b [if (true) \x7b return 1 \x7d, puts(\"x\")] \x7d; f()").program) 0).run
          Session.start.world ∧
      r.1.any (fun v => holdsReturned v (r.2.events.dropWhile fun e => !e.isReturn)) = true ∧
      r.2.output false = "x\n" := ⟨_, rfl, by decide +kernel⟩
  obtain ⟨⟨v?, w'⟩, hrun, hcheck, houtput⟩ := hfacts
  obtain ⟨v, rfl, hv⟩ := (Option.any_eq_true _ _).1 hcheck
  obtain ⟨pos, value, t, id, post, hdrop, henter, hne, hpart⟩ := of_holdsReturned hv
  have hevents := (List.takeWhile_append_dropWhile (p := fun e => !e.isReturn) (l := w'.events)).symm
  rw [hdrop] at hevents
  exact ⟨w', v, _, post, pos, value, t, id, hrun.symm, hevents, henter, houtput, hne, hpart⟩

end Eval

end Monkey
