import Monkey.Proofs.Renaming
/-!
# Worlds that are alike

Two worlds are alike up to a renaming of identities, scopes and places; what is bound to names that a program never
mentions, and in scopes that it never looks into, may differ altogether.  What a program may come near is a `Regime`:
which names, which scopes, which nodes in which scopes, which values.  Every step that a run can take leads from worlds
that are alike to worlds that are alike, as long as it keeps to the regime.
-/
namespace Monkey

/-! ## Stores -/

namespace Dict

variable {κ ν μ : Type} [BEq κ]

theorem insert_map_snd (f : ν → μ) (key : κ) (value : ν) (dict : List (κ × ν)) :
    insert key (f value) (dict.map fun e => (e.1, f e.2)) = (insert key value dict).map fun e => (e.1, f e.2) := by
  induction dict with
  | nil => rfl
  | cons e dict ih =>
    simp only [List.map_cons, insert, ih]
    split <;> simp

/-- An entry that is shown is inserted among those that are shown. -/
theorem filter_insert_shown [LawfulBEq κ] {shown : κ → Bool} {key : κ} (hkey : shown key = true) (value : ν)
    (dict : List (κ × ν)) :
    (insert key value dict).filter (fun e => shown e.1) = insert key value (dict.filter fun e => shown e.1) := by
  induction dict with
  | nil => simp [insert, hkey]
  | cons e dict ih =>
    by_cases he : (e.1 == key) = true
    · have hshown : shown e.1 = true := by rw [eq_of_beq he, hkey]
      simp [insert, he, hkey, hshown]
    · by_cases hshown : shown e.1 = true
      · simp [insert, he, hshown, ih]
      · simp [insert, he, hshown, ih]

theorem lookup_filter [LawfulBEq κ] {shown : κ → Bool} {key : κ} (hkey : shown key = true) (dict : List (κ × ν)) :
    (dict.filter fun e => shown e.1).lookup key = dict.lookup key := by
  induction dict with
  | nil => rfl
  | cons e dict ih =>
    obtain ⟨k, v⟩ := e
    rw [List.lookup_cons]
    by_cases hk : shown k = true
    · rw [List.filter_cons_of_pos (by exact hk), List.lookup_cons, ih]
    · have hne : (key == k) = false := by
        by_contra heq
        rw [Bool.not_eq_false] at heq
        exact hk (eq_of_beq heq ▸ hkey)
      rw [List.filter_cons_of_neg (by exact hk), ih, hne]

end Dict

namespace Store

variable (st : Store)

theorem outer?_of_size_le {t : Nat} (ht : st.size ≤ t) : st.outer? t = none := by
  unfold outer?
  rw [Array.getElem?_eq_none ht]
  rfl

theorem enclosing_of_size_le {t : Nat} (ht : st.size ≤ t) : st.enclosing t = [] := by
  rw [enclosing, outer?_of_size_le st ht]

theorem enclosing_push_next (outer : Option ScopeId) :
    (st.push outer).enclosing st.next = (outer.map st.chain).getD [] := by
  have hlink : (st.push outer).outer? st.next = outer := by
    unfold outer? push next
    rw [Array.getElem?_push_size]
    rfl
  rw [enclosing, hlink]
  cases outer with
  | none => rfl
  | some t =>
    show t :: _ = t :: st.enclosing t
    by_cases ht : t < st.next
    · rw [if_pos ht, enclosing_push st ht]
    · -- inside a scope that does not exist
      rw [if_neg ht, enclosing_of_size_le st (Nat.le_of_not_lt ht)]

theorem enclosing_push_of_ne {t : Nat} (ht : t ≠ st.next) (outer : Option ScopeId) :
    (st.push outer).enclosing t = st.enclosing t := by
  rcases Nat.lt_or_ge t st.size with hlt | hle
  · exact enclosing_push st hlt outer
  · have hle' : (st.push outer).size ≤ t := by
      rw [size_push]
      exact Nat.lt_of_le_of_ne hle fun heq => ht heq.symm
    rw [enclosing_of_size_le st hle, enclosing_of_size_le _ hle']

end Store

/-- The second world is a later one: what was there is there, inside the same scopes. -/
structure World.Older (w w' : World) : Prop where
  fresh : w.fresh ≤ w'.fresh
  size : w.store.size ≤ w'.store.size
  enclosing : ∀ t : Nat, t < w.store.size → w'.store.enclosing t = w.store.enclosing t

namespace World.Older

variable {w w' w'' : World}

theorem refl (w : World) : w.Older w := ⟨Nat.le_refl _, Nat.le_refl _, fun _ _ => rfl⟩

theorem trans (h : w.Older w') (h' : w'.Older w'') : w.Older w'' :=
  ⟨Nat.le_trans h.fresh h'.fresh, Nat.le_trans h.size h'.size, fun t ht => by
    rw [h'.enclosing t (Nat.lt_of_lt_of_le ht h.size), h.enclosing t ht]⟩

theorem emit (w : World) (e : Event) : w.Older { w with log := e :: w.log } :=
  ⟨Nat.le_refl _, Nat.le_refl _, fun _ _ => rfl⟩

theorem made (w : World) : w.Older { w with fresh := w.fresh + 1 } :=
  ⟨Nat.le_succ _, Nat.le_refl _, fun _ _ => rfl⟩

theorem bind (w : World) (s : ScopeId) (name : String) (v : Value) :
    w.Older { w with store := w.store.set s name v, log := .bind s name v :: w.log } :=
  ⟨Nat.le_refl _, Nat.le_of_eq (Store.size_set _ _ _ _).symm, fun t _ => Store.enclosing_set _ s name v t⟩

theorem push (w : World) (outer : Option ScopeId) : w.Older { w with store := w.store.push outer } :=
  ⟨Nat.le_refl _, Nat.le_trans (Nat.le_succ _) (Nat.le_of_eq (Store.size_push _ _).symm),
    fun _ ht => Store.enclosing_push _ ht outer⟩

end World.Older

/-! ## Regimes -/

/-- The value does not directly wrap a value that a `return` has wrapped already. -/
def Value.WrapsOnce (v : Value) : Prop := ∀ id u, v = .ret id u → u.type ≠ .returnValue

theorem Value.isSignal_of_returnValue {v : Value} (h : v.type = .returnValue) : v.isSignal = true := by
  cases v <;> first | rfl | cases h

/-- How many function literals a node is: one, or none.  What is below a function literal runs in the scope of a call,
everything else where its parent runs. -/
def Node.literals : Node → Nat
  | expr (.fn _ _ _) => 1
  | _ => 0

/-- What a program may come near: the names that it may look up and bind, the scopes that it may look into (when there
are so many), the nodes that it may evaluate in a scope, and what may be a part of its values. -/
structure Regime where
  shown : String → Bool
  live : Nat → ScopeId → Prop
  admits : World → Node → ScopeId → Prop
  allows : World → Value → Prop
  live_mono : ∀ {k l : Nat} {t : ScopeId}, k ≤ l → live k t → live l t
  live_old : ∀ {k : Nat} {t : ScopeId}, live (k + 1) t → t = k ∨ live k t
  admits_mono : ∀ {w w' : World} {nd : Node} {s : ScopeId}, w.Older w' → admits w nd s → admits w' nd s
  admits_live : ∀ {w : World} {nd : Node} {s : ScopeId}, admits w nd s → live w.store.size s
  admits_shown : ∀ {w : World} {id : Ident} {s : ScopeId}, admits w (.ident id) s → shown id.name = true
  admits_child : ∀ {w : World} {nd child : Node} {s : ScopeId}, admits w nd s → nd.literals = 0 →
    child ∈ nd.children → admits w child s
  allows_mono : ∀ {w w' : World} {v : Value}, w.Older w' → allows w v → allows w' v
  allows_plain : ∀ (w : World) {v : Value}, v.identity? = none → allows w v
  allows_made : ∀ (w : World) {v : Value}, v.identity? = some w.fresh → v.type ≠ .function → v.WrapsOnce →
    allows { w with fresh := w.fresh + 1 } v
  allows_fn : ∀ {w : World} {pos : Pos} {params : List Ident} {body : Block} {s : ScopeId},
    admits w (.expr (.fn pos params body)) s → allows { w with fresh := w.fresh + 1 } (.fn w.fresh params body s)
  live_of_allows : ∀ {w : World} {id : Identity} {params : List Ident} {body : Block} {scope : ScopeId},
    allows w (.fn id params body scope) → live w.store.size scope
  admits_call : ∀ {w : World} {id : Identity} {params : List Ident} {body : Block} {scope : ScopeId} {nd : Node},
    allows w (.fn id params body scope) → nd ∈ params.map Node.ident ++ [Node.block body] →
    admits { w with store := w.store.push (some scope) } nd w.store.next

namespace Regime

/-- Where every scope is live, a scope was live before the last one was opened. -/
theorem live_old_of_all {k : Nat} {t : ScopeId} (h : True) : t = k ∨ True := .inr h

variable (g : Regime)

/-- The bindings with names that the program may look up. -/
def visible (entries : List (String × Value)) : List (String × Value) := entries.filter fun b => g.shown b.1

variable {g} in
theorem visible_insert {name : String} (hname : g.shown name = true) (v : Value) (entries : List (String × Value)) :
    g.visible (Dict.insert name v entries) = Dict.insert name v (g.visible entries) :=
  Dict.filter_insert_shown hname v entries

/-- Every part of the value is allowed. -/
def Good (w : World) (v : Value) : Prop := ∀ u, v.HasPart u → g.allows w u

/-- An event of a program that keeps to the regime. -/
def Fits (w : World) : Event → Prop
  | .enter nd s => g.admits w nd s
  | .leave nd s v => g.admits w nd s ∧ g.Good w v
  | .bind _ _ v => g.Good w v
  | .print _ => True

variable {g} {w w' : World}

theorem Good.mono {v : Value} (h : g.Good w v) (hw : w.Older w') : g.Good w' v := fun u hu => g.allows_mono hw (h u hu)

theorem Good.held {u v : Value} (h : g.Good w v) (hu : u ∈ v.held) : g.Good w u := fun p hp => h p (.held hu hp)

theorem Good.of_held {v : Value} (h : g.allows w v) (hheld : ∀ u ∈ v.held, g.Good w u) : g.Good w v := fun p hp => by
  cases hp with
  | self => exact h
  | held hu hp => exact hheld _ hu p hp

theorem good_plain {v : Value} (hv : v.identity? = none) : g.Good w v :=
  .of_held (g.allows_plain w hv) fun u hu => by
    rw [Value.held_of_identity? hv] at hu
    cases hu

theorem Good.unwrap {v : Value} (h : g.Good w v) : g.Good w v.unwrap := by
  rcases v.unwrap_cases with heq | hheld
  · rwa [heq]
  · exact h.held hheld

theorem Fits.mono {e : Event} (h : g.Fits w e) (hw : w.Older w') : g.Fits w' e := by
  cases e with
  | enter => exact g.admits_mono hw h
  | leave => exact ⟨g.admits_mono hw h.1, h.2.mono hw⟩
  | bind => exact Good.mono h hw
  | print => trivial

end Regime

/-- A world in which nothing leads outside the regime: from a scope that may be looked into, neither the way outward
nor the values bound there. -/
structure Regime.Kept (g : Regime) (w : World) : Prop where
  outward : ∀ t : ScopeId, g.live w.store.size t → ∀ u ∈ w.store.enclosing t, g.live w.store.size u
  bound : ∀ t : ScopeId, g.live w.store.size t → ∀ b ∈ g.visible (w.store.bindings t), g.Good w b.2

namespace Regime

variable {g : Regime} {w w' : World}

/-- The log does not matter. -/
theorem Kept.relog (h : g.Kept w) (log : List Event) : g.Kept { w with log := log } :=
  ⟨h.outward, fun t ht b hb => (h.bound t ht b hb).mono ⟨Nat.le_refl _, Nat.le_refl _, fun _ _ => rfl⟩⟩

theorem Kept.made (h : g.Kept w) : g.Kept { w with fresh := w.fresh + 1 } :=
  ⟨h.outward, fun t ht b hb => (h.bound t ht b hb).mono (.made w)⟩

theorem Kept.push (h : g.Kept w) {outer : Option ScopeId} (houter : ∀ o ∈ outer, g.live w.store.size o) :
    g.Kept { w with store := w.store.push outer } := by
  refine ⟨fun t ht u hu => ?_, fun t ht b hb => ?_⟩
  · rw [Store.size_push] at ht ⊢
    refine g.live_mono (Nat.le_succ _) ?_
    by_cases hnew : t = w.store.next
    · subst hnew
      rw [Store.enclosing_push_next] at hu
      cases outer with
      | none => cases hu
      | some o =>
        rcases List.mem_cons.1 hu with rfl | hu
        · exact houter _ rfl
        · exact h.outward o (houter o rfl) u hu
    · rw [Store.enclosing_push_of_ne _ hnew] at hu
      exact h.outward t ((g.live_old ht).resolve_left hnew) u hu
  · rw [Store.size_push] at ht
    rw [Store.bindings_push] at hb
    by_cases hnew : t = w.store.next
    · subst hnew
      rw [Store.bindings_of_size_le _ (by exact Nat.le_refl _)] at hb
      cases hb
    · exact (h.bound t ((g.live_old ht).resolve_left hnew) b hb).mono (.push w _)

theorem Kept.bind (h : g.Kept w) (s : ScopeId) (name : String) {v : Value} (hv : g.Good w v) :
    g.Kept { w with store := w.store.set s name v, log := .bind s name v :: w.log } := by
  have hold := World.Older.bind w s name v
  refine ⟨fun t ht => ?_, fun t ht b hb => ?_⟩
  · rw [Store.size_set] at ht ⊢
    rw [Store.enclosing_set]
    exact h.outward t ht
  · rw [Store.size_set] at ht
    obtain ⟨hmem, hshown⟩ := List.mem_filter.1 hb
    rcases Store.mem_bindings_set hmem with heq | hmem
    · cases heq
      exact hv.mono hold
    · exact (h.bound t ht b (List.mem_filter.2 ⟨hmem, hshown⟩)).mono hold

end Regime

/-! ## Worlds that are alike -/

/-- How two runs are compared: within a regime, up to a renaming, and from these logs on. -/
structure Likeness where
  regime : Regime
  along : Renaming
  since : List Event
  since' : List Event

/-- Two worlds are alike: what will be made is renamed to what will be made; scopes stand inside the renamed scopes;
visible bindings and the events are those of the other world, renamed; and the first world keeps to the regime, with all
its events. -/
structure Likeness.Alike (c : Likeness) (w w' : World) : Prop extends c.regime.Kept w where
  fresh : ∀ k : Nat, c.along.identity (w.fresh + k) = w'.fresh + k
  size : ∀ k : Nat, c.along.scope (w.store.size + k) = w'.store.size + k
  enclosing : ∀ t : ScopeId, w'.store.enclosing (c.along.scope t) = (w.store.enclosing t).map c.along.scope
  visible : ∀ t : ScopeId, c.regime.visible (w'.store.bindings (c.along.scope t)) =
    (c.regime.visible (w.store.bindings t)).map fun b => (b.1, b.2.rename c.along)
  log : ∃ es : List Event, w.log = es ++ c.since ∧ w'.log = es.map (Event.rename c.along) ++ c.since' ∧
    ∀ e ∈ es, c.regime.Fits w e

namespace Likeness

variable {c : Likeness} {w w' : World}

theorem Alike.next (h : c.Alike w w') : c.along.scope w.store.next = w'.store.next := h.size 0

theorem Alike.size_le (h : c.Alike w w') {s : Nat} (hs : w.store.size ≤ s) : w'.store.size ≤ c.along.scope s := by
  have heq := h.size (s - w.store.size)
  rw [Nat.add_sub_cancel' hs] at heq
  rw [heq]
  exact Nat.le_add_right _ _

theorem Alike.scope_lt (h : c.Alike w w') {s : Nat} (hs : s < w.store.size) : c.along.scope s < w'.store.size := by
  by_contra hle
  have heq := h.size (c.along.scope s - w'.store.size)
  rw [Nat.add_sub_cancel' (Nat.not_lt.1 hle)] at heq
  have : w.store.size + (c.along.scope s - w'.store.size) = s := c.along.scope_injective heq
  omega

/-- Worlds that are alike are so with other logs, and are compared from there on. -/
theorem Alike.relog (h : c.Alike w w') (log log' : List Event) :
    Alike ⟨c.regime, c.along, log, log'⟩ { w with log := log } { w' with log := log' } :=
  ⟨h.toKept.relog log, h.fresh, h.size, h.enclosing, h.visible, [], rfl, rfl, nofun⟩

/-- Only the log has grown, by an event that fits. -/
theorem Alike.emit (h : c.Alike w w') {e : Event} (he : c.regime.Fits w e) :
    c.Alike { w with log := e :: w.log } { w' with log := e.rename c.along :: w'.log } := by
  have hold := World.Older.emit w e
  obtain ⟨es, hlog, hlog', hes⟩ := h.log
  refine ⟨h.toKept.relog _, h.fresh, h.size, h.enclosing, h.visible, e :: es, by simp [hlog], by simp [hlog'],
    fun e' he' => ?_⟩
  rcases List.mem_cons.1 he' with rfl | he'
  · exact he.mono hold
  · exact (hes e' he').mono hold

theorem Alike.made (h : c.Alike w w') :
    c.Alike { w with fresh := w.fresh + 1 } { w' with fresh := w'.fresh + 1 } := by
  obtain ⟨es, hlog, hlog', hes⟩ := h.log
  refine ⟨h.toKept.made, fun k => ?_, h.size, h.enclosing, h.visible, es, hlog, hlog',
    fun e he => (hes e he).mono (.made w)⟩
  have := h.fresh (k + 1)
  rwa [Nat.add_comm k 1, ← Nat.add_assoc, ← Nat.add_assoc] at this

theorem Alike.push (h : c.Alike w w') {scope : ScopeId} (hscope : c.regime.live w.store.size scope) :
    c.Alike { w with store := w.store.push (some scope) }
      { w' with store := w'.store.push (some (c.along.scope scope)) } := by
  have hold := World.Older.push w (some scope)
  obtain ⟨es, hlog, hlog', hes⟩ := h.log
  have hnext (t : Nat) : c.along.scope t = w'.store.next ↔ t = w.store.next := by
    rw [← h.next, c.along.scope_injective.eq_iff]
  refine ⟨h.toKept.push (by simpa using hscope), h.fresh, fun k => ?_, fun t => ?_, fun t => ?_, es, hlog, hlog',
    fun e he => (hes e he).mono hold⟩
  · have := h.size (k + 1)
    rwa [Store.size_push, Store.size_push, Nat.add_assoc, Nat.add_comm 1 k, Nat.add_assoc, Nat.add_comm 1 k]
  · by_cases ht : t = w.store.next
    · subst ht
      rw [(hnext _).2 rfl, Store.enclosing_push_next, Store.enclosing_push_next]
      simp [Store.chain, h.enclosing]
    · rw [Store.enclosing_push_of_ne _ ht, Store.enclosing_push_of_ne _ fun heq => ht ((hnext t).1 heq), h.enclosing]
  · rw [Store.bindings_push, Store.bindings_push, h.visible]

theorem Alike.bind (h : c.Alike w w') {s : ScopeId} {name : String} {v : Value} (hname : c.regime.shown name = true)
    (hv : c.regime.Good w v) :
    c.Alike { w with store := w.store.set s name v, log := .bind s name v :: w.log }
      { w' with store := w'.store.set (c.along.scope s) name (v.rename c.along),
                log := .bind (c.along.scope s) name (v.rename c.along) :: w'.log } := by
  have hold := World.Older.bind w s name v
  obtain ⟨es, hlog, hlog', hes⟩ := h.log
  refine ⟨h.toKept.bind s name hv, h.fresh, fun k => ?_, fun t => ?_, fun t => ?_, .bind s name v :: es,
    by simp [hlog], by simp [hlog', Event.rename], fun e he => ?_⟩
  · rw [Store.size_set, Store.size_set, h.size]
  · rw [Store.enclosing_set, Store.enclosing_set, h.enclosing]
  · by_cases hs : s < w.store.size
    · rw [Store.bindings_set _ hs, Store.bindings_set _ (h.scope_lt hs)]
      by_cases hst : s = t
      · rw [if_pos hst, if_pos (by rw [hst]), Regime.visible_insert hname, Regime.visible_insert hname, h.visible,
          Dict.insert_map_snd]
      · rw [if_neg hst, if_neg fun heq => hst (c.along.scope_injective heq), h.visible]
    · -- a scope that does not exist takes no binding, in either world
      rw [Store.set_of_size_le _ (Nat.not_lt.1 hs), Store.set_of_size_le _ (h.size_le (Nat.not_lt.1 hs)), h.visible]
  · rcases List.mem_cons.1 he with rfl | he
    · exact hv.mono hold
    · exact (hes e he).mono hold

theorem Alike.get? (h : c.Alike w w') {s : ScopeId} (hs : c.regime.live w.store.size s) {name : String}
    (hname : c.regime.shown name = true) :
    w'.store.get? (c.along.scope s) name = (w.store.get? s name).map (Value.rename c.along) ∧
      ∀ v ∈ w.store.get? s name, c.regime.Good w v := by
  have hlookup (t : ScopeId) : (w'.store.bindings (c.along.scope t)).lookup name =
      ((w.store.bindings t).lookup name).map (Value.rename c.along) := by
    rw [← Dict.lookup_filter hname, ← Dict.lookup_filter hname (w.store.bindings t), ← Dict.lookup_map_snd]
    exact congrArg _ (h.visible t)
  constructor
  · unfold Store.get? Store.chain
    rw [h.enclosing, ← List.map_cons, List.findSome?_map, List.map_findSome?]
    exact congrArg₂ _ (funext hlookup) rfl
  · intro v hv
    obtain ⟨t, ht, hentry⟩ := List.exists_of_findSome?_eq_some hv
    have hlive : c.regime.live w.store.size t := by
      rcases List.mem_cons.1 ht with rfl | ht
      · exact hs
      · exact h.outward s hs t ht
    obtain ⟨l₁, l₂, heq, -⟩ := List.lookup_eq_some_iff.1 hentry
    exact h.bound t hlive (name, v) (List.mem_filter.2 ⟨by rw [heq]; simp, hname⟩)

end Likeness

end Monkey
