import Monkey.Proofs.Simulation
import Monkey.Proofs.Walks
/-!
# Names that nothing mentions

What a name is bound to does not matter to an evaluation in which the name is not mentioned, neither in the node nor in
any function that can be reached from its scope: over the scopes around a scope, the values bound there, and the scopes
in which functions among them were made.  Whatever is bound to the name anywhere, the evaluation takes the same course
(`Eval.unmentioned_irrelevant`).
-/
namespace Monkey

/-! ## Names in a tree -/

/-- The name that a node is, if it is an identifier. -/
def Node.name? : Node → Option String
  | expr (.ident id) => some id.name
  | _ => none

/-- The identifiers in a tree, those of parameters and of `let` statements among them. -/
def Node.names (nd : Node) : List String := (nd.walk 0).filterMap fun visit => visit.2.name?

/-! ## Reach -/

namespace Store

/-- The scopes that can be reached from a scope: outward, and where a function was made that is a part of a bound
value. -/
inductive Reaches (st : Store) (s : ScopeId) : ScopeId → Prop
  | here : Reaches st s s
  | outward {t u : ScopeId} (h : Reaches st s t) (hu : u ∈ st.enclosing t) : Reaches st s u
  | captured {t scope : ScopeId} {name : String} {v : Value} {id : Identity} {params : List Ident} {body : Block}
      (h : Reaches st s t) (hv : (name, v) ∈ st.bindings t) (hf : v.HasPart (.fn id params body scope)) :
      Reaches st s scope

/-- A value that can be reached from a scope: a part of one that is bound in a scope that can be reached. -/
def ReachesValue (st : Store) (s : ScopeId) (u : Value) : Prop :=
  ∃ t name v, st.Reaches s t ∧ (name, v) ∈ st.bindings t ∧ v.HasPart u

end Store

/-- The tree, at a place of it, does not mention the name. -/
def Node.Omits (x : String) (nd : Node) : Prop :=
  ∃ root depth, x ∉ Node.names root ∧ ∀ visit ∈ nd.walk depth, visit ∈ root.walk 0

theorem Node.Omits.child {x : String} {nd child : Node} (h : nd.Omits x) (hc : child ∈ nd.children) :
    child.Omits x := by
  obtain ⟨root, depth, hx, hwalk⟩ := h
  refine ⟨root, depth + 1, hx, fun visit hv => hwalk visit ?_⟩
  rw [Node.walk_eq]
  exact List.mem_cons_of_mem _ (List.mem_flatMap.2 ⟨child, hc, hv⟩)

theorem Node.omits_of_not_mem {x : String} {nd : Node} (h : x ∉ nd.names) : nd.Omits x :=
  ⟨nd, 0, h, fun _ hv => hv⟩

theorem Node.Omits.ne {x : String} {id : Ident} (h : (Node.ident id).Omits x) : id.name ≠ x := by
  obtain ⟨root, depth, hx, hwalk⟩ := h
  rintro rfl
  exact hx (List.mem_filterMap.2 ⟨_, hwalk (depth, .ident id) List.mem_cons_self, rfl⟩)

/-- Nothing mentions the name: neither a node that is evaluated nor a function that can be reached from the scope, or is
made later. -/
def Regime.omitting (x : String) (st : Store) (s : ScopeId) : Regime where
  shown name := name != x
  live _ t := st.Reaches s t ∨ st.size ≤ t
  admits w nd t := st.size ≤ w.store.size ∧ (st.Reaches s t ∨ st.size ≤ t) ∧ nd.Omits x
  allows w v := ∀ id params body scope, v = .fn id params body scope →
    st.size ≤ w.store.size ∧ (st.Reaches s scope ∨ st.size ≤ scope) ∧
      ∀ nd ∈ params.map Node.ident ++ [Node.block body], nd.Omits x
  live_mono _ h := h
  live_old h := .inr h
  admits_mono hw h := ⟨Nat.le_trans h.1 hw.size, h.2⟩
  admits_live h := h.2.1
  admits_shown h := by simpa using h.2.2.ne
  admits_child h _ hc := ⟨h.1, h.2.1, h.2.2.child hc⟩
  allows_mono hw h id params body scope heq :=
    let ⟨hsize, hrest⟩ := h id params body scope heq
    ⟨Nat.le_trans hsize hw.size, hrest⟩
  allows_plain _ _ h _ _ _ _ heq := by subst heq; cases h
  allows_made _ _ _ htype _ _ _ _ _ heq := by subst heq; exact absurd rfl htype
  allows_fn h id params body scope heq := by
    cases heq
    exact ⟨h.1, h.2.1, fun nd hnd => h.2.2.child hnd⟩
  live_of_allows h := (h _ _ _ _ rfl).2.1
  admits_call h hnd := by
    obtain ⟨hsize, -, homits⟩ := h _ _ _ _ rfl
    exact ⟨Nat.le_trans hsize (by simp), .inr hsize, homits _ hnd⟩

/-- Two worlds in which the same has happened, and which agree on every name but one. -/
structure World.AgreeBut (x : String) (w w' : World) : Prop where
  fresh : w'.fresh = w.fresh
  log : w'.log = w.log
  enclosing : ∀ t : ScopeId, w'.store.enclosing t = w.store.enclosing t
  bindings : ∀ t : ScopeId, (w'.store.bindings t).filter (fun b => b.1 != x) =
    (w.store.bindings t).filter fun b => b.1 != x

theorem Store.visible_set (g : Regime) {x : String} (hx : g.shown x = false) (st : Store) (s t : ScopeId) (v : Value) :
    g.visible ((st.set s x v).bindings t) = g.visible (st.bindings t) := by
  by_cases hs : s < st.size
  · rw [bindings_set _ hs]
    split
    · exact Dict.filter_insert hx v _
    · rfl
  · rw [set_of_size_le _ (Nat.not_lt.1 hs)]

theorem Regime.kept_omitting {x : String} {w : World} {s : ScopeId}
    (hfn : ∀ id params body scope, w.store.ReachesValue s (.fn id params body scope) →
      x ∉ params.map (·.name) ∧ x ∉ (Node.block body).names) : (omitting x w.store s).Kept w where
  outward t ht u hu := by
    rcases ht with ht | ht
    · exact .inl (ht.outward hu)
    · rw [Store.enclosing_of_size_le _ ht] at hu
      cases hu
  bound t ht b hb := by
    have hmem := (List.mem_filter.1 hb).1
    rcases ht with ht | ht
    · rintro u hu id params body scope rfl
      obtain ⟨hparams, hbody⟩ := hfn id params body scope ⟨t, b.1, b.2, ht, hmem, hu⟩
      refine ⟨Nat.le_refl _, .inl (ht.captured hmem hu), fun nd hnd => ?_⟩
      rcases List.mem_append.1 hnd with hnd | hnd
      · obtain ⟨p, hp, rfl⟩ := List.mem_map.1 hnd
        refine Node.omits_of_not_mem fun hx => hparams ?_
        rw [show (Node.ident p).names = [p.name] from rfl, List.mem_singleton] at hx
        exact hx ▸ List.mem_map_of_mem hp
      · rw [List.mem_singleton.1 hnd]
        exact Node.omits_of_not_mem hbody
    · rw [Store.bindings_of_size_le _ ht] at hmem
      cases hmem

theorem Regime.Kept.alike_set {x : String} {st : Store} {s : ScopeId} {w : World} (h : (Regime.omitting x st s).Kept w)
    (t : ScopeId) (v : Value) :
    ((Regime.omitting x st s).beside w).Alike w { w with store := w.store.set t x v } where
  toKept := h
  fresh _ := rfl
  size _ := by rw [Store.size_set]; rfl
  enclosing u := by rw [Store.enclosing_set]; exact (List.map_id _).symm
  visible u := by
    have hhidden : ((Regime.omitting x st s).beside w).regime.shown x = false := by simp [Regime.beside, Regime.omitting]
    exact (Store.visible_set _ hhidden _ _ _ _).trans (Value.map_rename_placing_id _).symm
  log := ⟨[], rfl, rfl, fun _ he => nomatch he⟩

theorem Likeness.Alike.agreeBut {x : String} {st : Store} {s : ScopeId} {w u u' : World}
    (h : ((Regime.omitting x st s).beside w).Alike u u') : u.AgreeBut x u' where
  fresh := (h.fresh 0).symm
  log := by
    obtain ⟨es, hlog, hlog', -⟩ := h.log
    rw [hlog, hlog']
    simp [Regime.beside]
  enclosing t := (h.enclosing t).trans (List.map_id _)
  bindings t := (h.visible t).trans (Value.map_rename_placing_id _)

namespace Eval

/-- **A name that nothing mentions does not matter.**  Let neither the node nor a function that can be reached from its
scope mention a name.  Whatever the name is bound to in whatever scope, the evaluation overflows if it overflows without
that binding, or gives the same result, with the same events, and leaves every other name bound to the same. -/
theorem unmentioned_irrelevant (n : Nat) (nd : Node) (s t : ScopeId) (x : String) (v : Value) (w : World)
    (hnd : x ∉ nd.names)
    (hfn : ∀ id params body scope, w.store.ReachesValue s (.fn id params body scope) →
      x ∉ params.map (·.name) ∧ x ∉ (Node.block body).names) :
    (∃ a u u', evaluate n nd s w = .value a u ∧ evaluate n nd s { w with store := w.store.set t x v } = .value a u' ∧
      u.AgreeBut x u') ∨
    ∃ u u', evaluate n nd s w = .overflow u ∧ evaluate n nd s { w with store := w.store.set t x v } = .overflow u' ∧
      u.AgreeBut x u' := by
  have hadmits : (Regime.omitting x w.store s).admits w nd s :=
    ⟨Nat.le_refl _, .inl .here, Node.omits_of_not_mem hnd⟩
  have hends := tracks_evaluate (c := (Regime.omitting x w.store s).beside w) n hadmits _
    ((Regime.kept_omitting hfn).alike_set t v)
  rw [show nd.relocate (Regime.beside _ w).along.place = nd from nd.relocate_id] at hends
  change Likeness.EndsAlike _ _ _ _ (evaluate n nd s _) at hends
  generalize evaluate n nd s w = first, evaluate n nd s { w with store := w.store.set t x v } = second at hends
  cases hends with
  | value older alike related =>
    obtain ⟨rfl, -⟩ := related
    exact .inl ⟨_, _, _, rfl, congrArg (Ending.value · _) (congrFun Value.rename_placing_id _), alike.agreeBut⟩
  | overflow older alike => exact .inr ⟨_, _, rfl, rfl, alike.agreeBut⟩

/-- The identity function `f`, called while `z` is bound beside it. -/
theorem unmentioned_irrelevant_call :
    ∃ (w : World) (a : Value) (u u' : World),
      w.store.bindings 0 = [("f", .fn 0 [⟨⟨1, 12⟩, "y"⟩] (.mk ⟨1, 15⟩ [.ret ⟨1, 17⟩ (some (.ident ⟨⟨1, 24⟩, "y"⟩))]) 0)] ∧
      "z" ∉ (Node.program (parse "f(2)").program).names ∧
      evaluate 20 (.program (parse "f(2)").program) 0 w = .value a u ∧
      evaluate 20 (.program (parse "f(2)").program) 0 { w with store := w.store.set 0 "z" (.str "new") } = .value a u' ∧
      u.AgreeBut "z" u' := by
  let f : Value := .fn 0 [⟨⟨1, 12⟩, "y"⟩] (.mk ⟨1, 15⟩ [.ret ⟨1, 17⟩ (some (.ident ⟨⟨1, 24⟩, "y"⟩))]) 0
  let w : World := ⟨⟨#[⟨none, [("f", f)]⟩]⟩, 1, []⟩
  have hnames : "z" ∉ (Node.program (parse "f(2)").program).names := by decide +kernel
  have hfn : ∀ id params body scope, w.store.ReachesValue 0 (.fn id params body scope) →
      "z" ∉ params.map (·.name) ∧ "z" ∉ (Node.block body).names := by
    rintro id params body scope ⟨t, name, v, -, hmem, hpart⟩
    have ht : t < 1 := by
      by_contra hle
      rw [Store.bindings_of_size_le w.store (Nat.not_lt.1 hle)] at hmem
      cases hmem
    obtain rfl : t = 0 := Nat.lt_one_iff.1 ht
    obtain ⟨rfl, rfl⟩ : name = "f" ∧ v = f := by
      have h : (name, v) ∈ [("f", f)] := hmem
      simpa using h
    simp only [f] at hpart
    cases hpart with
    | self => decide +kernel
    | held hu => cases hu
  have hsome : ((evaluate 20 (.program (parse "f(2)").program) 0).run w).1.isSome = true := by decide +kernel
  obtain ⟨a, ha⟩ := exists_value_of_run hsome
  rcases unmentioned_irrelevant 20 (.program (parse "f(2)").program) 0 0 "z" (.str "new") w hnames hfn with h | h
  · obtain ⟨a, u, u', hu, hu', hagree⟩ := h
    exact ⟨w, a, u, u', rfl, hnames, hu, hu', hagree⟩
  · obtain ⟨u, u', hu, -⟩ := h
    cases ha.symm.trans hu

end Eval

end Monkey
