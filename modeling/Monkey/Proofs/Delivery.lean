import Monkey.Proofs.Lookup
import Monkey.Proofs.Operands
/-!
# Values are handed on as they are

What is bound under a name, passed to a function, returned from it or taken out of an array or a hash is the very value
that was put there, with its identity (`Eval.delivery`).
-/
namespace Monkey

namespace Store

/-- A name means its entry in the scope itself, if there is one. -/
theorem get?_of_lookup {st : Store} {s : ScopeId} {name : String} {v : Value}
    (h : (st.bindings s).lookup name = some v) : st.get? s name = some v := by
  rw [get?, chain, List.findSome?_cons, h]

theorem get?_set {st : Store} {s : Nat} (hs : s < st.size) (name : String) (v : Value) :
    (st.set s name v).get? s name = some v := by
  refine get?_of_lookup ?_
  rw [bindings_set st hs, if_pos rfl, Dict.lookup_insert, if_pos (beq_self_eq_true name)]

/-- Binding a name changes no other name. -/
theorem get?_set_of_ne (st : Store) {s : ScopeId} {name other : String} (h : other ≠ name) (v : Value) (t : ScopeId) :
    (st.set s name v).get? t other = st.get? t other := by
  refine get?_congr (by rw [chain, chain, enclosing_set]) fun u _ => ?_
  by_cases hs : s < st.size
  · rw [bindings_set st hs]
    split
    · rw [Dict.lookup_insert, if_neg fun heq => h (eq_of_beq heq)]
    · rfl
  · rw [set_of_size_le st (Nat.le_of_not_lt hs)]

/-- The store with entries made in a scope, one after the other. -/
def setAll (st : Store) (s : ScopeId) (entries : List (String × Value)) : Store :=
  entries.foldl (fun st e => st.set s e.1 e.2) st

theorem setAll_cons (st : Store) (s : ScopeId) (e : String × Value) (entries : List (String × Value)) :
    st.setAll s (e :: entries) = (st.set s e.1 e.2).setAll s entries := rfl

theorem bindings_setAll {s : Nat} : ∀ (entries : List (String × Value)) {st : Store}, s < st.size →
    (st.setAll s entries).bindings s = entries.foldl (fun dict e => Dict.insert e.1 e.2 dict) (st.bindings s)
  | [], _, _ => rfl
  | e :: entries, st, hs => by
    rw [setAll_cons, bindings_setAll entries (by rwa [size_set]), bindings_set st hs, if_pos rfl]
    rfl

/-- In a scope inside another, a name means its entry there, or else what it means outside. -/
theorem get?_inside {st : Store} {s o : ScopeId} (h : st.enclosing s = st.chain o) (name : String) :
    st.get? s name = ((st.bindings s).lookup name).or (st.get? o name) := by
  rw [get?, chain, h, List.findSome?_cons]
  cases (st.bindings s).lookup name <;> rfl

end Store

namespace Eval

/-- What a call binds: each parameter with the argument in its place, or with null if there are too few. -/
def passed : List Ident → List Value → List (String × Value)
  | [], _ => []
  | p :: params, args => (p.name, args.head?.getD .null) :: passed params args.tail

theorem passed_append (pre : List Ident) (p : Ident) (post : List Ident) : ∀ args : List Value,
    passed (pre ++ p :: post) args =
      passed pre args ++ (p.name, args[pre.length]?.getD .null) :: passed post (args.drop (pre.length + 1)) := by
  induction pre with
  | nil => intro args; cases args <;> rfl
  | cons q pre ih =>
    intro args
    rw [List.cons_append, passed, ih, passed, List.cons_append]
    cases args <;> simp

theorem map_fst_passed (params : List Ident) : ∀ args : List Value,
    (passed params args).map (·.1) = params.map (·.name) := by
  induction params with
  | nil => exact fun _ => rfl
  | cons p params ih => exact fun args => congrArg (p.name :: ·) (ih args.tail)

/-- The last parameter of a name is found with the argument in its place. -/
theorem lookup_passed (pre : List Ident) {p : Ident} {post : List Ident} (hpost : ∀ q ∈ post, q.name ≠ p.name)
    (args : List Value) :
    (Dict.ofEntries (passed (pre ++ p :: post) args)).lookup p.name = some (args[pre.length]?.getD .null) := by
  refine Dict.lookup_ofEntries_last (passed_append pre p post args) fun e he => ?_
  have hmem := List.mem_map_of_mem (f := (·.1)) he
  rw [map_fst_passed] at hmem
  obtain ⟨q, hq, hname⟩ := List.mem_map.1 hmem
  exact hname ▸ hpost q hq

/-- A world in which the parameters have been bound. -/
def bound (s : ScopeId) (params : List Ident) (args : List Value) (w : World) : World :=
  { w with
    store := w.store.setAll s (passed params args)
    log := ((passed params args).map fun e => Event.bind s e.1 e.2).reverse ++ w.log }

theorem bindParams_eq (s : ScopeId) : ∀ (params : List Ident) (args : List Value) (w : World),
    bindParams s params args w = .value () (bound s params args w)
  | [], _, _ => rfl
  | p :: params, args, w => by
    have hrest := bindParams_eq s params args.tail
      { w with
        store := w.store.set s p.name (args.head?.getD .null)
        log := .bind s p.name (args.head?.getD .null) :: w.log }
    refine (show bindParams s (p :: params) args w = bindParams s params args.tail _ from rfl).trans (hrest.trans ?_)
    simp [bound, passed, Store.setAll_cons]

/-- The world in which a call enters its body. -/
def atBody (params : List Ident) (scope : ScopeId) (args : List Value) (w : World) : World :=
  bound w.store.next params args { w with store := w.store.push (some scope) }

theorem openCall_eq (params : List Ident) (scope : ScopeId) (args : List Value) (w : World) :
    openCall params scope args w = .value w.store.next (atBody params scope args w) :=
  bind_value (bindParams_eq w.store.next params args { w with store := w.store.push (some scope) })

theorem apply_fn_eq (ev : Below) (id : Identity) (params : List Ident) (body : Block) (scope : ScopeId)
    (args : List Value) (w : World) : apply ev (.fn id params body scope) args w =
      (ev (.block body) w.store.next >>= fun v => pure v.unwrap) (atBody params scope args w) := by
  rw [apply_fn]
  exact bind_value (bindParams_eq w.store.next params args { w with store := w.store.push (some scope) })

/-- The scope of a call has the parameters for its entries, and no others. -/
theorem bindings_atBody (params : List Ident) (scope : ScopeId) (args : List Value) (w : World) :
    (atBody params scope args w).store.bindings w.store.next = Dict.ofEntries (passed params args) := by
  have hnew : w.store.next < (w.store.push (some scope)).size := by
    rw [Store.size_push]
    exact Nat.lt_succ_self _
  have hempty : (w.store.push (some scope)).bindings w.store.next = [] := by
    rw [Store.bindings_push]
    exact Store.bindings_of_size_le _ (Nat.le_refl _)
  refine (Store.bindings_setAll _ hnew).trans ?_
  rw [hempty]
  rfl

/-- A function is entered in a new scope, in which the last parameter of a name means the argument in its place. -/
theorem apply_enters (ev : Below) (id : Identity) (params : List Ident) (body : Block) (scope : ScopeId)
    (args : List Value) (w : World) : ∃ w',
      apply ev (.fn id params body scope) args w = (ev (.block body) w.store.next >>= fun v => pure v.unwrap) w' ∧
      ∀ (pre : List Ident) (p : Ident) (post : List Ident), params = pre ++ p :: post → (∀ q ∈ post, q.name ≠ p.name) →
        w'.store.get? w.store.next p.name = some (args[pre.length]?.getD .null) := by
  refine ⟨_, apply_fn_eq ev id params body scope args w, fun pre p post hparams hpost => ?_⟩
  have hbindings := congrArg (List.lookup p.name) (bindings_atBody params scope args w)
  exact Store.get?_of_lookup (hbindings.trans (hparams ▸ lookup_passed pre hpost args))

/-- The evaluation ends with this very value. -/
def Delivers (x : Eval Value) (w : World) (u : Value) : Prop := ∃ w', x w = .value u w'

/-- A value stands in an array at an index, or in a hash under a key. -/
inductive Stored : Value → Value → Value → Prop
  | element {id : Identity} {elements : List Value} {i : Nat} {u : Value} (h : elements[i]? = some u) :
      Stored (.array id elements) (.int i) u
  | entry {id : Identity} {pairs : List (Key × Value)} {k : Value} {key : Key} {u : Value} (hkey : k.key? = some key)
      (h : pairs.lookup key = some u) : Stored (.hash id pairs) k u

theorem Stored.applyIndex {a k u : Value} (h : Stored a k u) : a.applyIndex k = .ok u := by
  cases h with
  | @element id elements i u h =>
    show Except.ok (Value.elementAt elements (Int.ofNat i)) = _
    rw [Value.elementAt, h]
    rfl
  | entry hkey h =>
    rw [Value.applyIndex_hash hkey, h]
    rfl

theorem Stored.isError {a k u : Value} (h : Stored a k u) : a.isError = false ∧ k.isError = false := by
  cases h with
  | element => exact ⟨rfl, rfl⟩
  | entry hkey => exact ⟨rfl, Value.isError_of_key hkey⟩

/-- Values are handed on as they are, whatever evaluates the nodes below. -/
structure Delivery (ev : Below) : Prop where
  /-- A name gives what it means. -/
  lookup : ∀ {s : ScopeId} {name : String} {w : World} {u : Value}, w.store.get? s name = some u →
    (named s name).Delivers w u
  /-- A binding gives its name the value. -/
  bind : ∀ {pos : Pos} {name : Ident} {e : Expr} {s : Nat} {w w' : World} {u : Value}, ev (.expr e) s w = .value u w' →
    u.isSignal = false → s < w'.store.size →
    ∃ w'', stmt ev s (.bind pos name e) w = .value .null w'' ∧ w''.store.get? s name.name = some u
  /-- In the scope of a call, a parameter means the argument. -/
  argument : ∀ {id : Identity} {pre post : List Ident} {p : Ident} {body : Block} {scope : ScopeId} {args : List Value}
    (w : World), (∀ q ∈ post, q.name ≠ p.name) → ∃ w',
      apply ev (.fn id (pre ++ p :: post) body scope) args w =
        (ev (.block body) w.store.next >>= fun v => pure v.unwrap) w' ∧
      w'.store.get? w.store.next p.name = some (args[pre.length]?.getD .null)
  /-- A `return` wraps the value, and a call takes it out again. -/
  returned : ∀ {pos : Pos} {e : Expr} {s : ScopeId} {w w' : World} {u : Value}, ev (.expr e) s w = .value u w' →
    u.isSignal = false → ∃ id w'', stmt ev s (.ret pos (some e)) w = .value (.ret id u) w''
  result : ∀ {body : Block} {t : ScopeId} {w w' : World} {id : Identity} {u : Value},
    ev (.block body) t w = .value (.ret id u) w' → (ev (.block body) t >>= fun v => pure v.unwrap).Delivers w u
  /-- An index gives what is stored there. -/
  index : ∀ {pos : Pos} {left i : Expr} {s : ScopeId} {w w₁ w₂ : World} {a k u : Value},
    ev (.expr left) s w = .value a w₁ → ev (.expr i) s w₁ = .value k w₂ → Stored a k u →
    (expr ev s (.index pos left i)).Delivers w u
  first : ∀ {id : Identity} {u : Value} {elements : List Value} (w : World),
    (apply ev (.builtin .first) [.array id (u :: elements)]).Delivers w u
  last : ∀ {id : Identity} {u : Value} {elements : List Value} (w : World),
    (apply ev (.builtin .last) [.array id (elements ++ [u])]).Delivers w u

theorem delivery (ev : Below) : Delivery ev where
  lookup {s name w u} h := by
    have hlookup : Eval.lookup s name w = .value (some u) w := congrArg (Ending.value · w) h
    exact ⟨w, bind_value hlookup⟩
  bind {pos name e s w w' u} h hsignal hs := by
    refine ⟨{ w' with store := w'.store.set s name.name u, log := .bind s name.name u :: w'.log },
      (bind_value h).trans ?_, Store.get?_set hs name.name u⟩
    rw [hsignal]
    rfl
  argument w hpost := by
    obtain ⟨w', hrun, hmeans⟩ := apply_enters ev _ _ _ _ _ w
    exact ⟨w', hrun, hmeans _ _ _ rfl hpost⟩
  returned {pos e s w w' u} h hsignal := by
    refine ⟨w'.fresh, { w' with fresh := w'.fresh + 1 }, (bind_value h).trans ?_⟩
    rw [hsignal]
    rfl
  result h := ⟨_, bind_value h⟩
  index {pos left i s w w₁ w₂ a k u} hleft hi hstored := by
    refine ⟨w₂, (bind_value hleft).trans ?_⟩
    rw [hstored.isError.1]
    refine (bind_value hi).trans ?_
    rw [hstored.isError.2, hstored.applyIndex]
    rfl
  first w := ⟨w, rfl⟩
  last {id u elements} w := by
    refine ⟨w, ?_⟩
    show (pure ((elements ++ [u]).getLast?.getD .null) : Eval Value) w = _
    rw [List.getLast?_concat]
    rfl

end Eval

end Monkey
