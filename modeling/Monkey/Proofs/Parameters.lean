import Monkey.Proofs.Delivery
import Monkey.Proofs.Likeness
/-!
# Arguments are bound by position

A call opens one scope, inside the scope where the function was made, and binds one parameter after the other in it.  So
of parameters with the same name the last one counts, also if there is no argument left for it, and what the name means
outside is hidden in either case; no other name and no other scope changes (`Eval.binds_by_position`).
-/
namespace Monkey

namespace Store

@[simp] theorem enclosing_setAll (s : ScopeId) (t : ScopeId) : ∀ (entries : List (String × Value)) (st : Store),
    (st.setAll s entries).enclosing t = st.enclosing t
  | [], _ => rfl
  | e :: entries, st => by rw [setAll_cons, enclosing_setAll s t entries, enclosing_set]

theorem scopes_setAll {s t : Nat} (ht : t ≠ s) : ∀ (entries : List (String × Value)) (st : Store),
    (st.setAll s entries).scopes[t]? = st.scopes[t]?
  | [], _ => rfl
  | e :: entries, st => by
    rw [setAll_cons, scopes_setAll ht entries, set, Array.getElem?_modify, if_neg fun hst => ht hst.symm]

/-- A name that gets no entry means what it meant, wherever it is looked up. -/
theorem get?_setAll {s t : ScopeId} {name : String} : ∀ {entries : List (String × Value)} (st : Store),
    name ∉ entries.map (·.1) → (st.setAll s entries).get? t name = st.get? t name
  | [], _, _ => rfl
  | e :: entries, st, hname => by
    rw [List.map_cons, List.mem_cons, not_or] at hname
    rw [setAll_cons, get?_setAll _ hname.2, get?_set_of_ne st hname.1]

theorem scopes_push {st : Store} {t : Nat} (ht : t ≠ st.next) (outer : Option ScopeId) :
    (st.push outer).scopes[t]? = st.scopes[t]? := by
  unfold push
  rw [Array.getElem?_push, if_neg (show t ≠ st.scopes.size from ht)]

/-- In a scope that has just been opened every name means what it means around it. -/
theorem get?_push_next (st : Store) (outer : ScopeId) (name : String) :
    (st.push (some outer)).get? st.next name = st.get? outer name := by
  have henclosing : (st.push (some outer)).enclosing st.next = st.chain outer := enclosing_push_next st (some outer)
  have hnew : st.bindings st.next = [] := bindings_of_size_le st (Nat.le_refl _)
  simp [get?, chain, henclosing, bindings_push, hnew]

end Store

/-! ## Places of parameters -/

/-- The place of the last parameter of a name. -/
def LastAt (params : List Ident) (name : String) (j : Nat) : Prop :=
  (params.map (·.name))[j]? = some name ∧ ∀ i, j < i → (params.map (·.name))[i]? ≠ some name

theorem exists_lastAt {name : String} : ∀ {params : List Ident}, name ∈ params.map (·.name) →
    ∃ j, LastAt params name j
  | p :: params, hname => by
    by_cases hrest : name ∈ params.map (·.name)
    · obtain ⟨j, hj, hlast⟩ := exists_lastAt hrest
      refine ⟨j + 1, hj, fun i hi => ?_⟩
      obtain ⟨i, rfl⟩ : ∃ k, i = k + 1 := ⟨i - 1, by omega⟩
      exact hlast i (by omega)
    · have hp : p.name = name := ((List.mem_cons.1 hname).resolve_right hrest).symm
      refine ⟨0, congrArg some hp, fun i hi hsome => hrest ?_⟩
      obtain ⟨i, rfl⟩ : ∃ k, i = k + 1 := ⟨i - 1, by omega⟩
      exact List.mem_of_getElem? hsome

/-- A parameter that is the last of its name stands in front of others only. -/
theorem LastAt.split {params : List Ident} {name : String} {j : Nat} (h : LastAt params name j) :
    ∃ pre p post, params = pre ++ p :: post ∧ pre.length = j ∧ p.name = name ∧ ∀ q ∈ post, q.name ≠ name := by
  obtain ⟨hj, hlast⟩ := h
  rw [List.getElem?_map, Option.map_eq_some_iff] at hj
  obtain ⟨p, hp, hname⟩ := hj
  obtain ⟨hlt, hget⟩ := List.getElem?_eq_some_iff.1 hp
  refine ⟨params.take j, p, params.drop (j + 1), ?_, List.length_take_of_le (Nat.le_of_lt hlt), hname, fun q hq => ?_⟩
  · rw [← hget, List.getElem_cons_drop, List.take_append_drop]
  · obtain ⟨i, hi⟩ := List.mem_iff_getElem?.1 hq
    rw [List.getElem?_drop] at hi
    rintro rfl
    exact hlast (j + 1 + i) (by omega) (by rw [List.getElem?_map, hi]; rfl)

theorem LastAt.lookup_passed {params : List Ident} {name : String} {j : Nat} (h : LastAt params name j)
    (args : List Value) : (Dict.ofEntries (Eval.passed params args)).lookup name = some (args[j]?.getD .null) := by
  obtain ⟨pre, p, post, rfl, rfl, rfl, hpost⟩ := h.split
  exact Eval.lookup_passed pre hpost args

namespace Eval

/-- **Arguments are bound by position.**  A call enters its body in one new scope, inside the scope where the function
was made.  There a name that is a parameter means the argument in the place of the last such parameter, or null if the
arguments do not reach so far, whatever the name means outside; every other name means what it means outside.  The new
scope lists the parameters, each name once, in the order of the first of each, and no other scope is touched. -/
theorem binds_by_position (params : List Ident) (scope : ScopeId) (args : List Value) (w : World) :
    ∃ w', openCall params scope args w = .value w.store.next w' ∧
      (∀ (ev : Below) (id : Identity) (body : Block), apply ev (.fn id params body scope) args w =
        (ev (.block body) w.store.next >>= fun v => pure v.unwrap) w') ∧
      -- what names mean in the new scope
      (∀ name ∈ params.map (·.name), ∃ j, LastAt params name j ∧
        (j < args.length → w'.store.get? w.store.next name = args[j]?) ∧
        (args.length ≤ j → w'.store.get? w.store.next name = some .null)) ∧
      (∀ name, name ∉ params.map (·.name) → w'.store.get? w.store.next name = w.store.get? scope name) ∧
      -- what the new scope lists, and what is around it
      (w'.store.bindings w.store.next).map (·.1) = (params.map (·.name)).eraseDups ∧
      w'.store.enclosing w.store.next = w.store.chain scope ∧
      ∀ t : Nat, t ≠ w.store.next → w'.store.scopes[t]? = w.store.scopes[t]? := by
  refine ⟨atBody params scope args w, openCall_eq params scope args w,
    fun ev id body => apply_fn_eq ev id params body scope args w, fun name hname => ?_, fun name hname => ?_, ?_, ?_,
    fun t ht => ?_⟩
  · obtain ⟨j, hj⟩ := exists_lastAt hname
    have hbindings := congrArg (List.lookup name) (bindings_atBody params scope args w)
    have hget := Store.get?_of_lookup (hbindings.trans (hj.lookup_passed args))
    refine ⟨j, hj, fun hlt => ?_, fun hle => ?_⟩
    · rw [hget, List.getElem?_eq_getElem hlt, Option.getD_some]
    · rw [hget, List.getElem?_eq_none hle, Option.getD_none]
  · exact (Store.get?_setAll _ (by rwa [map_fst_passed])).trans (Store.get?_push_next _ _ _)
  · rw [bindings_atBody, Dict.keys_ofEntries, map_fst_passed]
  · exact (Store.enclosing_setAll _ _ _ _).trans (Store.enclosing_push_next _ (some scope))
  · exact (Store.scopes_setAll ht _ _).trans (Store.scopes_push ht _)

/-- A parameter that comes twice, with no argument for the second: it means null, neither the first argument nor what
the name means outside. -/
theorem binds_by_position_repeated :
    let params : List Ident := [⟨.start, "a"⟩, ⟨.start, "b"⟩, ⟨.start, "a"⟩]
    let w : World := { World.empty with store := ⟨#[⟨none, [("a", .int 10), ("c", .int 30)]⟩]⟩ }
    ∃ w', openCall params 0 [.int 1, .int 2] w = .value 1 w' ∧
      w'.store.get? 1 "a" = some .null ∧ w'.store.get? 1 "b" = some (.int 2) ∧ w'.store.get? 1 "c" = some (.int 30) ∧
      (w'.store.bindings 1).map (·.1) = ["a", "b"] := by
  intro params w
  obtain ⟨w', hrun, -, hparams, hothers, hlists, -⟩ := binds_by_position params 0 [.int 1, .int 2] w
  refine ⟨w', hrun, ?_, ?_, hothers "c" (by decide), hlists⟩
  · obtain ⟨j, ⟨-, hlast⟩, -, hmissing⟩ := hparams "a" (by decide)
    exact hmissing (Nat.le_of_not_lt fun hj => hlast 2 hj rfl)
  · obtain ⟨j, ⟨hj, -⟩, hsupplied, -⟩ := hparams "b" (by decide)
    have hplace : ∀ j < 3, (params.map (·.name))[j]? = some "b" → j = 1 := by decide
    obtain rfl := hplace j (List.getElem?_eq_some_iff.1 hj).1 hj
    exact hsupplied (by decide)

end Eval

end Monkey
