import Monkey.Proofs.Operands
/-!
# What an evaluation leaves alone

An evaluation of a node in a scope works in that scope and in scopes that it opens itself; every other scope is what it
was.  In its own scope it enters only names that a `let` of the node binds (`Node.lets`, a syntactic set that does not
look into function literals), because a called body runs in a scope of its own.  The bindings after an evaluation are
those before it with the `bind` events entered one by one, so the log misses no binding.
-/
namespace Monkey

/-! ## Names bound by a node -/

mutual

/-- The names that a `let` of the expression binds, not those inside a function literal. -/
def Expr.lets : Expr → List String
  | .array _ elements => Expr.letsAll elements
  | .hash _ entries => Expr.letsPairs entries
  | .unary _ _ operand => operand.lets
  | .binary _ _ left right => left.lets ++ right.lets
  | .cond _ condition consequence none => condition.lets ++ consequence.lets
  | .cond _ condition consequence (some alternative) => condition.lets ++ (consequence.lets ++ alternative.lets)
  | .call _ callee args => callee.lets ++ Expr.letsAll args
  | .index _ left i => left.lets ++ i.lets
  | _ => []

def Expr.letsAll : List Expr → List String
  | [] => []
  | e :: rest => e.lets ++ Expr.letsAll rest

def Expr.letsPairs : List (Expr × Expr) → List String
  | [] => []
  | (key, value) :: rest => key.lets ++ (value.lets ++ Expr.letsPairs rest)

def Stmt.lets : Stmt → List String
  | .expr _ value => value.lets
  | .bind _ name value => name.name :: value.lets
  | .ret _ none => []
  | .ret _ (some value) => value.lets

def Stmt.letsAll : List Stmt → List String
  | [] => []
  | st :: rest => st.lets ++ Stmt.letsAll rest

def Block.lets : Block → List String
  | .mk _ statements => Stmt.letsAll statements

end

def Node.lets : Node → List String
  | program p => Stmt.letsAll p.statements
  | block b => b.lets
  | stmt st => st.lets
  | expr e => e.lets

theorem Expr.letsAll_operands {e : Expr} {name : String} (h : name ∈ Expr.letsAll e.operands) : name ∈ e.lets := by
  cases e with
  | cond pos condition consequence alternative =>
    cases alternative <;> simp_all [Expr.operands, Expr.letsAll, Expr.lets]
  | unary | binary | array | call | index => simpa [Expr.operands, Expr.letsAll, Expr.lets] using h
  | _ => simp [Expr.operands, Expr.letsAll] at h

theorem Expr.mem_lets_branch {pos : Pos} {condition : Expr} {consequence block : Block} {alternative : Option Block}
    (hb : block = consequence ∨ alternative = some block) {name : String} (h : name ∈ block.lets) :
    name ∈ (Expr.cond pos condition consequence alternative).lets := by
  rcases hb with rfl | rfl
  · cases alternative <;> simp [Expr.lets, h]
  · simp [Expr.lets, h]

theorem Block.lets_eq (b : Block) : b.lets = Stmt.letsAll b.statements := by
  cases b; rfl

/-! ## The store -/

namespace Dict

variable {κ ν : Type} [BEq κ]

theorem mem_insert {key : κ} {value : ν} : ∀ {dict : List (κ × ν)} {entry : κ × ν},
    entry ∈ insert key value dict → entry = (key, value) ∨ entry ∈ dict
  | [], _, h => .inl (List.mem_singleton.1 h)
  | first :: rest, entry, h => by
    unfold insert at h
    split at h
    · rcases List.mem_cons.1 h with h | h
      · exact .inl h
      · exact .inr (List.mem_cons_of_mem _ h)
    · rcases List.mem_cons.1 h with h | h
      · exact .inr (h ▸ List.mem_cons_self)
      · exact (mem_insert h).imp id (List.mem_cons_of_mem _)

/-- A kept place: the keys there are stay in front. -/
theorem keys_insert [LawfulBEq κ] (key : κ) (value : ν) : ∀ dict : List (κ × ν),
    dict.map (·.1) <+: (insert key value dict).map (·.1)
  | [] => List.nil_prefix
  | entry :: rest => by
    unfold insert
    by_cases h : (entry.1 == key) = true
    · rw [if_pos h]
      simp [eq_of_beq h]
    · rw [if_neg h]
      simpa using keys_insert key value rest

/-- The entries under other keys stay, in their order. -/
theorem filter_insert [LawfulBEq κ] {P : κ → Bool} {key : κ} (hkey : P key = false) (value : ν) :
    ∀ dict : List (κ × ν), (insert key value dict).filter (fun e => P e.1) = dict.filter fun e => P e.1
  | [] => by simp [insert, hkey]
  | entry :: rest => by
    unfold insert
    by_cases h : (entry.1 == key) = true
    · rw [if_pos h]
      simp [eq_of_beq h, hkey]
    · rw [if_neg h]
      simp [List.filter_cons, filter_insert hkey value rest]

end Dict

namespace Store

/-- The number of scopes; the scopes that exist have the numbers below it. -/
def size (st : Store) : Nat := st.scopes.size

variable (st : Store)

@[simp] theorem size_push (outer : Option ScopeId) : (st.push outer).size = st.size + 1 := by
  simp [push, size]

@[simp] theorem size_set (s : ScopeId) (name : String) (v : Value) : (st.set s name v).size = st.size := by
  simp [set, size]

/-- The way outward is that of the links on it. -/
theorem enclosing_congr {st st' : Store} (t : Nat) (h : ∀ u : Nat, u ≤ t → st'.outer? u = st.outer? u) :
    st'.enclosing t = st.enclosing t := by
  induction t using Nat.strongRecOn with
  | ind t ih =>
    rw [enclosing, enclosing, h t (Nat.le_refl t)]
    cases st.outer? t with
    | none => rfl
    | some u =>
      by_cases hu : u < t
      · simp only [if_pos hu, ih u hu fun u' hu' => h u' (Nat.le_trans hu' (Nat.le_of_lt hu))]
      · simp only [if_neg hu]

/-- The nearest scope around a scope is the one that it is linked to. -/
theorem outer?_eq_head? (s : ScopeId) : st.outer? s = (st.enclosing s).head? := by
  rw [enclosing]
  cases st.outer? s <;> rfl

theorem outer?_push {t : Nat} (ht : t ≠ st.size) (outer : Option ScopeId) : (st.push outer).outer? t = st.outer? t := by
  unfold outer? push
  rw [Array.getElem?_push, if_neg (show t ≠ st.scopes.size from ht)]

theorem enclosing_push {t : Nat} (ht : t < st.size) (outer : Option ScopeId) :
    (st.push outer).enclosing t = st.enclosing t :=
  enclosing_congr t fun _ hu => outer?_push st (Nat.ne_of_lt (Nat.lt_of_le_of_lt hu ht)) outer

theorem bindings_of_size_le {t : Nat} (ht : st.size ≤ t) : st.bindings t = [] := by
  unfold bindings
  rw [Array.getElem?_eq_none ht]

theorem lt_size_of_mem_bindings {t : Nat} {b : String × Value} (h : b ∈ st.bindings t) : t < st.size :=
  Nat.lt_of_not_le fun hle => by
    rw [bindings_of_size_le st hle] at h
    cases h

/-- A new scope is empty, as is one that does not exist. -/
theorem bindings_push (outer : Option ScopeId) (t : ScopeId) : (st.push outer).bindings t = st.bindings t := by
  unfold bindings push
  by_cases h : t = st.scopes.size
  · subst h
    rw [Array.getElem?_push_size, Array.getElem?_eq_none (Nat.le_refl _)]
  · rw [Array.getElem?_push, if_neg h]

theorem enclosing_set (s : ScopeId) (name : String) (v : Value) (t : ScopeId) :
    (st.set s name v).enclosing t = st.enclosing t := by
  refine enclosing_congr t fun u _ => ?_
  unfold outer? set
  rw [Array.getElem?_modify]
  by_cases h : s = u
  · rw [if_pos h]; cases st.scopes[u]? <;> rfl
  · rw [if_neg h]

theorem bindings_set {s : Nat} (hs : s < st.size) (name : String) (v : Value) (t : ScopeId) :
    (st.set s name v).bindings t = if s = t then Dict.insert name v (st.bindings t) else st.bindings t := by
  unfold bindings set
  rw [Array.getElem?_modify]
  by_cases h : s = t
  · subst h
    rw [if_pos rfl, if_pos rfl, Array.getElem?_eq_getElem hs]
    rfl
  · rw [if_neg h, if_neg h]

theorem set_of_size_le {s : Nat} (hs : st.size ≤ s) (name : String) (v : Value) (t : ScopeId) :
    (st.set s name v).bindings t = st.bindings t := by
  unfold bindings set
  rw [Array.getElem?_modify]
  by_cases h : s = t
  · subst h
    rw [if_pos rfl, Array.getElem?_eq_none hs]
    rfl
  · rw [if_neg h]

/-- A scope is what is around it and what it binds. -/
theorem scope_eq {st st' : Store} {t : Nat} (ht : t < st.size) (ht' : t < st'.size)
    (henclosing : st'.enclosing t = st.enclosing t) (hbindings : st'.bindings t = st.bindings t) :
    st'.scopes[t]? = st.scopes[t]? := by
  have houter := congrArg List.head? henclosing
  rw [← outer?_eq_head?, ← outer?_eq_head?] at houter
  unfold outer? at houter
  unfold bindings at hbindings
  rw [Array.getElem?_eq_getElem ht, Array.getElem?_eq_getElem ht'] at *
  cases h : st.scopes[t]
  cases h' : st'.scopes[t]
  simp_all

/-- A name means the same where the way outward is the same and the name has not changed on it. -/
theorem get?_congr {st st' : Store} {s : ScopeId} {name : String} (hchain : st'.chain s = st.chain s)
    (hlookup : ∀ t ∈ st.chain s, (st'.bindings t).lookup name = (st.bindings t).lookup name) :
    st'.get? s name = st.get? s name := by
  simpa [get?, hchain, List.findSome?_map, Function.comp_def] using
    congrArg (List.findSome? id) (List.map_congr_left hlookup)

end Store

theorem Session.bindings_start (t : ScopeId) : Session.start.world.store.bindings t = [] := by
  show (Store.empty.push none).bindings t = []
  rw [Store.bindings_push]
  simp [Store.bindings, Store.empty]

/-! ## Frames -/

/-- The scope in which an event happens; a printed line belongs to none. -/
def Event.scope? : Event → Option ScopeId
  | enter _ s | leave _ s _ | bind s _ _ => some s
  | print _ => none

/-- An event of a scope, and, if it binds a name, one of these. -/
def Event.Own (s : ScopeId) (names : List String) (e : Event) : Prop :=
  e.scope? = some s ∧ ∀ t name v, e = .bind t name v → name ∈ names

theorem Event.Own.mono {s : Nat} {names names' : List String} (h : ∀ name ∈ names, name ∈ names') {e : Event}
    (he : e.Own s names) : e.Own s names' :=
  ⟨he.1, fun t name v heq => h name (he.2 t name v heq)⟩

theorem Event.own_bind {s : Nat} {names : List String} {name : String} (h : name ∈ names) (v : Value) :
    (Event.bind s name v).Own s names :=
  ⟨rfl, fun _ _ _ heq => by cases heq; exact h⟩

/-- The entry that an event makes in a scope. -/
def Event.entering (t : ScopeId) (entries : List (String × Value)) : Event → List (String × Value)
  | bind s name v => if s = t then Dict.insert name v entries else entries
  | _ => entries

/-- The bindings of a scope after events, given those before them. -/
def Event.replay (t : ScopeId) (es : List Event) (entries : List (String × Value)) : List (String × Value) :=
  es.foldl (Event.entering t) entries

theorem Event.replay_append (t : ScopeId) (es es' : List Event) (entries : List (String × Value)) :
    Event.replay t (es ++ es') entries = Event.replay t es' (Event.replay t es entries) :=
  List.foldl_append

theorem Event.replay_eq_self {t : ScopeId} : ∀ {es : List Event} (entries : List (String × Value)),
    (∀ e ∈ es, ∀ name v, e ≠ .bind t name v) → Event.replay t es entries = entries
  | [], _, _ => rfl
  | e :: es, entries, h => by
    have he : Event.entering t entries e = entries := by
      cases e with
      | bind s name v =>
        have hs : s ≠ t := fun hst => h _ List.mem_cons_self name v (by rw [hst])
        rw [Event.entering, if_neg hs]
      | _ => rfl
    show Event.replay t es (Event.entering t entries e) = entries
    rw [he]
    exact Event.replay_eq_self entries fun e' he' => h e' (List.mem_cons_of_mem _ he')

theorem Event.keys_replay (t : ScopeId) : ∀ (es : List Event) (entries : List (String × Value)),
    entries.map (·.1) <+: (Event.replay t es entries).map (·.1)
  | [], _ => List.prefix_rfl
  | e :: es, entries => by
    have he : entries.map (·.1) <+: (Event.entering t entries e).map (·.1) := by
      cases e with
      | bind s name v =>
        by_cases hs : s = t
        · simpa only [Event.entering, if_pos hs] using Dict.keys_insert name v entries
        · simp only [Event.entering, if_neg hs]
          exact List.prefix_rfl
      | _ => exact List.prefix_rfl
    exact he.trans (Event.keys_replay t es _)

/-- Only what is bound to a name changes it. -/
theorem Event.filter_replay {t : ScopeId} {names : List String} : ∀ {es : List Event} (entries : List (String × Value)),
    (∀ name v, Event.bind t name v ∈ es → name ∈ names) →
    (Event.replay t es entries).filter (fun b => b.1 ∉ names) = entries.filter fun b => b.1 ∉ names
  | [], _, _ => rfl
  | e :: es, entries, h => by
    have he : (Event.entering t entries e).filter (fun b => b.1 ∉ names) = entries.filter fun b => b.1 ∉ names := by
      cases e with
      | bind s name v =>
        by_cases hs : s = t
        · subst hs
          have hname : name ∈ names := h name v List.mem_cons_self
          simp only [Event.entering, if_pos]
          exact Dict.filter_insert (P := fun key => key ∉ names) (by simp [hname]) v entries
        · simp only [Event.entering, if_neg hs]
      | _ => rfl
    exact (Event.filter_replay _ fun name v hmem => h name v (List.mem_cons_of_mem _ hmem)).trans he

/-- From `w` to `w'`, by the events `es`: older scopes stay inside the same scopes, the bindings of a scope are those
before with the events entered, and an event of an older scope is one of `A`. -/
structure Footprint (A : Event → Prop) (es : List Event) (w w' : World) : Prop where
  grows : w.store.size ≤ w'.store.size
  enclosing : ∀ t : Nat, t < w.store.size → w'.store.enclosing t = w.store.enclosing t
  bindings : ∀ t : Nat, t < w'.store.size → w'.store.bindings t = Event.replay t es (w.store.bindings t)
  events : ∀ e ∈ es, ∀ t : Nat, e.scope? = some t → (w.store.size ≤ t ∧ t < w'.store.size) ∨ (t < w.store.size ∧ A e)

namespace Footprint

variable {A B : Event → Prop} {es es' : List Event} {w w' w'' : World}

theorem of_store_eq (h : w'.store = w.store) : Footprint A [] w w' :=
  ⟨Nat.le_of_eq (by rw [h]), fun _ _ => by rw [h], fun _ _ => by rw [h]; rfl, fun _ h => nomatch h⟩

theorem mono (h : Footprint A es w w') (hAB : ∀ e, A e → B e) : Footprint B es w w' :=
  ⟨h.grows, h.enclosing, h.bindings, fun e he t ht => (h.events e he t ht).imp id fun ⟨hlt, hA⟩ => ⟨hlt, hAB e hA⟩⟩

theorem scope_lt (h : Footprint A es w w') {e : Event} (he : e ∈ es) {t : Nat} (ht : e.scope? = some t) :
    t < w'.store.size := by
  rcases h.events e he t ht with ⟨-, hlt⟩ | ⟨hlt, -⟩
  · exact hlt
  · exact Nat.lt_of_lt_of_le hlt h.grows

/-- A scope in which nothing may happen is what it was. -/
theorem scope_eq (h : Footprint A es w w') {t : Nat} (ht : t < w.store.size) (hA : ∀ e, A e → e.scope? ≠ some t) :
    w'.store.scopes[t]? = w.store.scopes[t]? := by
  have ht' : t < w'.store.size := Nat.lt_of_lt_of_le ht h.grows
  refine Store.scope_eq ht ht' (h.enclosing t ht) ?_
  rw [h.bindings t ht']
  refine Event.replay_eq_self _ fun e he name v heq => ?_
  subst heq
  rcases h.events _ he t rfl with ⟨hle, -⟩ | ⟨-, hown⟩
  · omega
  · exact hA _ hown rfl

/-- The names bound in a scope from before. -/
theorem bind_mem {s : Nat} {names : List String} (h : Footprint (Event.Own s names) es w w') {t : Nat}
    (ht : t < w.store.size) {name : String} {v : Value} (he : Event.bind t name v ∈ es) : name ∈ names := by
  rcases h.events _ he t rfl with ⟨hle, -⟩ | ⟨-, hown⟩
  · omega
  · exact hown.2 t name v rfl

theorem trans (h : Footprint A es w w') (h' : Footprint A es' w' w'') : Footprint A (es ++ es') w w'' := by
  refine ⟨Nat.le_trans h.grows h'.grows, fun t ht => ?_, fun t ht => ?_, fun e he t ht => ?_⟩
  · rw [h'.enclosing t (Nat.lt_of_lt_of_le ht h.grows), h.enclosing t ht]
  · rw [h'.bindings t ht, Event.replay_append]
    by_cases hold : t < w'.store.size
    · rw [h.bindings t hold]
    · -- the scope is opened behind `w'`: the first events cannot have bound anything in it
      have hnone : ∀ e ∈ es, ∀ name v, e ≠ .bind t name v := fun e he name v heq =>
        hold (h.scope_lt he (by rw [heq]; rfl))
      have hle := h.grows
      rw [Event.replay_eq_self _ hnone, Store.bindings_of_size_le _ (by omega), Store.bindings_of_size_le _ (by omega)]
  · have hle := h.grows
    have hle' := h'.grows
    rcases List.mem_append.1 he with he | he
    · rcases h.events e he t ht with hnew | hold
      · exact .inl (by omega)
      · exact .inr hold
    · rcases h'.events e he t ht with hnew | ⟨hlt, hA⟩
      · exact .inl (by omega)
      · by_cases hold : t < w.store.size
        · exact .inr ⟨hold, hA⟩
        · exact .inl (by omega)

/-- What happens in a scope that has just been opened does not touch any older one. -/
theorem of_push {outer : Option ScopeId} (hA : ∀ e, A e → e.scope? = some w.store.size)
    (h : Footprint A es { w with store := w.store.push outer } w') : Footprint (fun _ => False) es w w' := by
  have hgrows := h.grows
  simp only [Store.size_push] at hgrows
  refine ⟨by omega, fun t ht => ?_, fun t ht => ?_, fun e he t ht => .inl ?_⟩
  · rw [h.enclosing t (by simp only [Store.size_push]; omega)]
    exact Store.enclosing_push _ ht outer
  · rw [h.bindings t ht]
    exact congrArg _ (Store.bindings_push _ outer t)
  · rcases h.events e he t ht with ⟨hle, hlt⟩ | ⟨-, hown⟩
    · simp only [Store.size_push] at hle
      exact ⟨by omega, hlt⟩
    · have hscope := hA e hown
      rw [ht, Option.some.injEq] at hscope
      exact ⟨by omega, by omega⟩

end Footprint

namespace Eval

/-- Where the first `k` scopes exist, the evaluation keeps within `A`. -/
def Framed {α : Type} (k : Nat) (A : Event → Prop) (x : Eval α) : Prop :=
  ∀ w, k ≤ w.store.size → x.Gives w fun es _ w' => Footprint A es w w'

section

variable {α β : Type} {k : Nat} {A B : Event → Prop} {x : Eval α}

theorem Framed.bind {f : α → Eval β} (hx : Framed k A x) (hf : ∀ a, Framed k A (f a)) : Framed k A (x >>= f) :=
  fun w hw => (hx w hw).bind fun _ a w' h =>
    (hf a w' (Nat.le_trans hw h.grows)).imp fun _ _ _ h' => h.trans h'

theorem Framed.mono {l : Nat} (hx : Framed l A x) (hkl : l ≤ k) (hAB : ∀ e, A e → B e) : Framed k B x := fun w hw =>
  (hx w (Nat.le_trans hkl hw)).imp fun _ _ _ h => h.mono hAB

theorem Framed.of_silent (hx : x.Silent) : Framed k A x := fun w _ =>
  (hx w).imp fun es _ w' ⟨hes, hstore⟩ => by
    subst hes
    exact .of_store_eq hstore

theorem framed_pure (a : α) : Framed k A (pure a) := .of_silent (silent_pure a)

theorem framed_ite {c : Prop} [Decidable c] {y : Eval α} (hx : Framed k A x) (hy : Framed k A y) :
    Framed k A (if c then x else y) := by
  split
  · exact hx
  · exact hy

/-- An event that binds nothing, in a scope that exists. -/
theorem framed_emit {e : Event} (hbind : ∀ s name v, e ≠ .bind s name v) (hscope : ∀ t : Nat, e.scope? = some t → t < k)
    (hA : A e) : Framed k A (emit e) := fun w hw => by
  refine gives_emit ⟨Nat.le_refl _, fun _ _ => rfl, fun t _ => ?_, fun e' he' t ht => .inr ?_⟩
  · exact (Event.replay_eq_self _ fun e' he' => List.mem_singleton.1 he' ▸ hbind t).symm
  · rw [List.mem_singleton.1 he'] at ht ⊢
    exact ⟨Nat.lt_of_lt_of_le (hscope t ht) hw, hA⟩

theorem framed_bindName {s : Nat} {name : String} {v : Value} (hs : s < k) (hA : A (.bind s name v)) :
    Framed k A (bindName s name v) := fun w hw => by
  have hlt : s < w.store.size := Nat.lt_of_lt_of_le hs hw
  refine gives_bindName ⟨by simp, fun t _ => Store.enclosing_set _ s name v t, fun t _ => ?_, fun e he t ht => .inr ?_⟩
  · exact Store.bindings_set _ hlt name v t
  · rw [List.mem_singleton.1 he] at ht ⊢
    cases ht
    exact ⟨hlt, hA⟩

theorem framed_emit_print (line : String) : Framed k A (emit (.print line)) := fun w _ => by
  refine gives_emit ⟨Nat.le_refl _, fun _ _ => rfl, fun t _ => rfl, fun e he t ht => ?_⟩
  rw [List.mem_singleton.1 he] at ht
  cases ht

/-! ## Calls -/

theorem framed_printAll : ∀ vs : List Value, Framed k A (Builtin.printAll vs)
  | [] => framed_pure _
  | _ :: vs => (framed_emit_print _).bind fun _ => framed_printAll vs

theorem framed_callBuiltin (f : Builtin) (args : List Value) : Framed k A (f.call args) := by
  rcases f.call_cases args with h | h
  · rw [h]
    exact (framed_printAll args).bind fun _ => framed_pure _
  · exact .of_silent (silent_answers h)

theorem framed_bindParams {s : Nat} (hs : s < k) : ∀ (params : List Ident) (args : List Value),
    (∀ p ∈ params, ∀ v, A (.bind s p.name v)) → Framed k A (bindParams s params args)
  | [], _, _ => framed_pure _
  | _ :: params, _, hA => (framed_bindName hs (hA _ List.mem_cons_self _)).bind fun _ =>
    framed_bindParams hs params _ fun p hp => hA p (List.mem_cons_of_mem _ hp)

end

section

variable {ev : Below} (hev : ∀ (nd : Node) (s : Nat), Framed (s + 1) (Event.Own s nd.lets) (ev nd s))
include hev

/-- A node below one that binds all its names. -/
theorem framed_below {nd : Node} {s : Nat} {names : List String} (h : ∀ name ∈ nd.lets, name ∈ names) :
    Framed (s + 1) (Event.Own s names) (ev nd s) :=
  (hev nd s).mono (Nat.le_refl _) fun _ => Event.Own.mono h

/-- **A call touches no scope that existed before it.** -/
theorem framed_apply {k : Nat} (callee : Value) (args : List Value) :
    Framed k (fun _ => False) (apply ev callee args) := by
  cases callee with
  | builtin f => exact framed_callBuiltin f args
  | fn id params body scope =>
    rw [apply_fn]
    intro w _
    -- what follows the opening of the new scope happens in it or in younger ones
    have hbody : ∀ t : Nat, Framed (t + 1) (Event.Own t (params.map (·.name) ++ body.lets))
        (bindParams t params args >>= fun _ => ev (.block body) t >>= fun v => pure v.unwrap) := fun t =>
      (framed_bindParams (Nat.lt_succ_self t) params args fun p hp v =>
          Event.own_bind (List.mem_append_left _ (List.mem_map_of_mem hp)) v).bind fun _ =>
        (framed_below hev fun _ => List.mem_append_right _).bind fun _ => framed_pure _
    refine gives_openScope_bind ((hbody _ _ (Nat.le_of_eq (Store.size_push _ _).symm)).imp fun _ _ _ h => ?_)
    exact h.of_push fun _ he => he.1
  | _ => exact .of_silent (silent_made _)

/-! ## Expressions -/

theorem framed_expressions (s : Nat) : ∀ es : List Expr,
    Framed (s + 1) (Event.Own s (Expr.letsAll es)) (expressions ev s es) := by
  intro es
  induction es with
  | nil => exact framed_pure _
  | cons e es ih =>
    refine (framed_below hev fun _ => List.mem_append_left _).bind fun v => framed_ite (framed_pure _) ?_
    refine (ih.mono (Nat.le_refl _) fun _ => .mono fun _ => List.mem_append_right _).bind fun r => ?_
    cases r <;> exact framed_pure _

theorem framed_pairs (s : Nat) : ∀ (entries : List (Expr × Expr)) (done : List (Key × Value)),
    Framed (s + 1) (Event.Own s (Expr.letsPairs entries)) (pairs ev s done entries)
  | [], _ => framed_pure _
  | (key, value) :: entries, done => by
    refine (framed_below hev fun _ => List.mem_append_left _).bind fun k => framed_ite (framed_pure _) ?_
    split
    · exact (Framed.of_silent (silent_made _)).bind fun _ => framed_pure _
    · refine (framed_below hev fun _ h => List.mem_append_right _ (List.mem_append_left _ h)).bind fun v =>
        framed_ite (framed_pure _) ?_
      exact (framed_pairs s entries _).mono (Nat.le_refl _) fun _ =>
        .mono fun _ h => List.mem_append_right _ (List.mem_append_right _ h)

theorem framed_finish (s : Nat) (e : Expr) (vs : List Value) :
    Framed (s + 1) (Event.Own s e.lets) (finish ev s e vs) := by
  have h : Finishes ev s e vs (finish ev s e vs) := finishes_finish e vs
  generalize finish ev s e vs = x at h ⊢
  cases h with
  | named => exact .of_silent (silent_named s _)
  | answer h => exact .of_silent (silent_answers h)
  | function => exact .of_silent (silent_made _)
  | branch he hb =>
    subst he
    exact framed_below hev fun name hname => Expr.mem_lets_branch hb hname
  | call => exact (framed_apply hev _ _).mono (Nat.le_refl _) fun _ => False.elim

theorem framed_expr (s : Nat) (e : Expr) : Framed (s + 1) (Event.Own s e.lets) (expr ev s e) := by
  by_cases he : ∃ pos entries, e = .hash pos entries
  · obtain ⟨pos, entries, rfl⟩ := he
    refine (framed_pairs hev s entries []).bind fun r => ?_
    cases r with
    | ok kvs => exact .of_silent (silent_made _)
    | error v => exact framed_pure _
  · rw [expr_eq_finish fun pos entries h => he ⟨pos, entries, h⟩]
    refine ((framed_expressions hev s e.operands).mono (Nat.le_refl _) fun _ =>
      .mono fun _ => Expr.letsAll_operands).bind fun r => ?_
    cases r with
    | ok vs => exact framed_finish hev s e vs
    | error v => exact framed_pure _

/-! ## Statements -/

theorem framed_statements (s : Nat) : ∀ (ss : List Stmt) (last : Value),
    Framed (s + 1) (Event.Own s (Stmt.letsAll ss)) (statements ev s last ss)
  | [], _ => framed_pure _
  | st :: ss, _ => by
    refine (framed_below hev fun _ => List.mem_append_left _).bind fun v => framed_ite (framed_pure _) ?_
    exact (framed_statements s ss v).mono (Nat.le_refl _) fun _ => .mono fun _ => List.mem_append_right _

theorem framed_stmt (s : Nat) : ∀ st : Stmt, Framed (s + 1) (Event.Own s st.lets) (stmt ev s st) := by
  intro st
  cases st with
  | expr _ value => exact hev (.expr value) s
  | bind _ _ _ =>
    refine (framed_below hev fun _ => List.mem_cons_of_mem _).bind fun v => framed_ite (framed_pure _) ?_
    exact (framed_bindName (Nat.lt_succ_self s) (Event.own_bind List.mem_cons_self v)).bind fun _ => framed_pure _
  | ret _ value =>
    cases value with
    | none => exact .of_silent (silent_made _)
    | some value =>
      exact (hev (.expr value) s).bind fun _ => framed_ite (framed_pure _) (.of_silent (silent_made _))

theorem framed_node (s : Nat) (nd : Node) : Framed (s + 1) (Event.Own s nd.lets) (node ev s nd) := by
  cases nd with
  | program p => exact (framed_statements hev s p.statements .null).bind fun _ => framed_pure _
  | block b =>
    show Framed _ (Event.Own s b.lets) _
    rw [b.lets_eq]
    exact framed_statements hev s b.statements .null
  | stmt st => exact framed_stmt hev s st
  | expr e => exact framed_expr hev s e

end

/-- **An evaluation stays in its scope and in those that it opens.** -/
theorem framed_evaluate : ∀ (n : Nat) (nd : Node) (s : Nat),
    Framed (s + 1) (Event.Own s nd.lets) (evaluate n nd s)
  | 0, _, _ => fun _ _ => gives_overflow
  | n + 1, nd, s => by
    have hlt : ∀ t : Nat, some s = some t → t < s + 1 := fun t h => by cases h; exact Nat.lt_succ_self s
    refine (framed_emit (e := .enter nd s) (by simp) hlt ⟨rfl, by simp⟩).bind fun _ => ?_
    refine (framed_node (framed_evaluate n) s nd).bind fun v => ?_
    exact (framed_emit (e := .leave nd s v) (by simp) hlt ⟨rfl, by simp⟩).bind fun _ => framed_pure v

end Eval

end Monkey
