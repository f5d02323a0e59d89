import Monkey.Proofs.Noninterference
/-!
# Signals are unwrapped once

A returned value can travel as data: it is passed as an argument, stored in an array or a hash, and given back by a
name, an index or a builtin function, and then it leaves a function a second time.  It is unwrapped only once on its way
out of a call or a program.  That is enough, because nothing that can be reached from a scope ever wraps a value that a
`return` has wrapped already: if it is so before an evaluation, then it is so afterwards, and of everything that the
evaluation has given or bound (`Eval.signals_unwrapped_once`).
-/
namespace Monkey

namespace Store

/-- From the scope, no returned value can be reached that directly wraps another. -/
def WrapsOnce (st : Store) (s : ScopeId) : Prop := ∀ u, st.ReachesValue s u → u.WrapsOnce

/-- From the value, no such returned value can be reached: over its parts, and over the scopes in which functions among
them were made. -/
def ValueWrapsOnce (st : Store) (v : Value) : Prop :=
  ∀ u, v.HasPart u → u.WrapsOnce ∧ ∀ id params body scope, u = .fn id params body scope → st.WrapsOnce scope

variable {st : Store} {s t : ScopeId}

theorem Reaches.trans (h : st.Reaches s t) {u : ScopeId} (h' : st.Reaches t u) : st.Reaches s u := by
  induction h' with
  | here => exact h
  | outward _ hu ih => exact ih.outward hu
  | captured _ hv hf ih => exact ih.captured hv hf

theorem WrapsOnce.of_reaches (h : st.WrapsOnce s) (hst : st.Reaches s t) : st.WrapsOnce t := fun u hu => by
  obtain ⟨t', name, v, ht', hv, hpart⟩ := hu
  exact h u ⟨t', name, v, hst.trans ht', hv, hpart⟩

theorem WrapsOnce.bound (h : st.WrapsOnce s) {name : String} {v : Value} (hv : (name, v) ∈ st.bindings s) :
    st.ValueWrapsOnce v := fun u hu => by
  refine ⟨h u ⟨s, name, v, .here, hv, hu⟩, fun id params body scope heq => ?_⟩
  subst heq
  exact h.of_reaches (Reaches.here.captured hv hu)

/-- From a scope that is not there, nothing can be reached. -/
theorem wrapsOnce_of_size_le (ht : st.size ≤ t) : st.WrapsOnce t := by
  have hreach : ∀ t', st.Reaches t t' → st.size ≤ t' := fun t' h => by
    induction h with
    | here => exact ht
    | outward _ hu ih =>
      rw [enclosing_of_size_le st ih] at hu
      cases hu
    | captured _ hv _ ih => exact absurd (st.lt_size_of_mem_bindings hv) (Nat.not_lt.2 ih)
  rintro u ⟨t', name, v, ht', hv, -⟩
  exact absurd (st.lt_size_of_mem_bindings hv) (Nat.not_lt.2 (hreach t' ht'))

end Store

/-! ## The regime -/

/-- Every wrapping is one of a value that is not wrapped already, and every scope is one from which only such can be
reached at the start. -/
def Regime.wrappingOnce (st : Store) : Regime where
  shown _ := true
  live _ t := st.WrapsOnce t
  admits w _ t := st.size ≤ w.store.size ∧ st.WrapsOnce t
  allows w v := v.WrapsOnce ∧
    ∀ id params body scope, v = .fn id params body scope → st.size ≤ w.store.size ∧ st.WrapsOnce scope
  live_mono _ h := h
  live_old h := .inr h
  admits_mono hw h := ⟨Nat.le_trans h.1 hw.size, h.2⟩
  admits_live h := h.2
  admits_shown _ := rfl
  admits_child h _ _ := h
  allows_mono hw h := ⟨h.1, fun id params body scope heq =>
    ⟨Nat.le_trans (h.2 id params body scope heq).1 hw.size, (h.2 id params body scope heq).2⟩⟩
  allows_plain _ _ hv := ⟨fun _ _ heq => (by subst heq; cases hv), fun _ _ _ _ heq => (by subst heq; cases hv)⟩
  allows_made _ _ _ htype honce := ⟨honce, fun _ _ _ _ heq => (by subst heq; exact absurd rfl htype)⟩
  allows_fn h := ⟨fun _ _ => nofun, fun _ _ _ _ heq => (by cases heq; exact h)⟩
  live_of_allows h := (h.2 _ _ _ _ rfl).2
  admits_call h _ := by
    have hsize := (h.2 _ _ _ _ rfl).1
    exact ⟨Nat.le_trans hsize (by simp), Store.wrapsOnce_of_size_le hsize⟩

namespace Regime

variable {st : Store} {w : World}

theorem good_wrappingOnce {v : Value} (h : w.store.ValueWrapsOnce v) : (wrappingOnce w.store).Good w v := fun u hu =>
  ⟨(h u hu).1, fun id params body scope heq => ⟨Nat.le_refl _, (h u hu).2 id params body scope heq⟩⟩

theorem kept_wrappingOnce (w : World) : (wrappingOnce w.store).Kept w where
  outward _ ht _ hu := ht.of_reaches (Store.Reaches.here.outward hu)
  bound _ ht _ hb := good_wrappingOnce (ht.bound (List.mem_filter.1 hb).1)

/-- Where the regime has been kept to, nothing is reached but what could be reached at the start, or is allowed. -/
theorem Kept.wrapsOnce (h : (wrappingOnce st).Kept w) {s : ScopeId} (hs : st.WrapsOnce s) : w.store.WrapsOnce s := by
  have hreach : ∀ t, w.store.Reaches s t → st.WrapsOnce t := fun t ht => by
    induction ht with
    | here => exact hs
    | outward _ hu ih => exact h.outward _ ih _ hu
    | captured _ hv hf ih => exact ((h.bound _ ih _ (List.mem_filter.2 ⟨hv, rfl⟩) _ hf).2 _ _ _ _ rfl).2
  rintro u ⟨t, name, v, ht, hv, hpart⟩
  exact (h.bound t (hreach t ht) (name, v) (List.mem_filter.2 ⟨hv, rfl⟩) u hpart).1

theorem Kept.valueWrapsOnce (h : (wrappingOnce st).Kept w) {v : Value} (hv : (wrappingOnce st).Good w v) :
    w.store.ValueWrapsOnce v := fun u hu =>
  ⟨(hv u hu).1, fun id params body scope heq => h.wrapsOnce ((hv u hu).2 id params body scope heq).2⟩

theorem Fits.valueWrapsOnce (hw : (wrappingOnce st).Kept w) {e : Event} (h : (wrappingOnce st).Fits w e) {v : Value}
    (hv : v ∈ e.value?) : w.store.ValueWrapsOnce v := by
  cases e with
  | enter => cases hv
  | leave nd s u => cases hv; exact hw.valueWrapsOnce h.2
  | bind s name u => cases hv; exact hw.valueWrapsOnce h
  | print => cases hv

end Regime

/-! ## Unwrapping -/

/-- What wraps once is no returned value any more when it has been unwrapped. -/
theorem Value.WrapsOnce.type_unwrap {v : Value} (h : v.WrapsOnce) : v.unwrap.type ≠ .returnValue := by
  cases v with
  | ret id u => exact h id u rfl
  | _ => nofun

namespace Eval

/-- An evaluation that starts with everything wrapped once gives a value that is no returned value, if it unwraps it in
the end. -/
theorem type_of_unwrapped {st : Store} {x : Eval Value} {w w' : World} {v : Value}
    (hx : (Regime.wrappingOnce st).Ends w (x w)) (h : (x >>= fun v => pure v.unwrap) w = .value v w') :
    v.type ≠ .returnValue := by
  obtain ⟨u, w₁, hu, hv⟩ := exists_of_bind h
  rw [hu] at hx
  cases hx with
  | value _ _ _ _ good =>
    cases hv
    exact (good u (.self u)).1.type_unwrap

end Eval

/-- Whatever the evaluation has given or bound on its way, and whatever can be reached from its value, wraps once; and
from every scope from which only such values could be reached before, only such can be reached now. -/
inductive Ending.WrapsOnce (w : World) : Ending Value → Prop
  | value {v : Value} {w' : World} {es : List Event} (given : w'.store.ValueWrapsOnce v)
    (scopes : ∀ t, w.store.WrapsOnce t → w'.store.WrapsOnce t) (log : w'.log = es ++ w.log)
    (events : ∀ e ∈ es, ∀ u ∈ e.value?, w'.store.ValueWrapsOnce u) : WrapsOnce w (.value v w')
  | overflow {w' : World} {es : List Event} (scopes : ∀ t, w.store.WrapsOnce t → w'.store.WrapsOnce t)
    (log : w'.log = es ++ w.log) (events : ∀ e ∈ es, ∀ u ∈ e.value?, w'.store.ValueWrapsOnce u) :
    WrapsOnce w (.overflow w')

theorem Ending.WrapsOnce.of_value {w w' : World} {v : Value} (h : (Ending.value v w').WrapsOnce w) :
    ∀ t, w.store.WrapsOnce t → w'.store.WrapsOnce t := by
  cases h
  assumption

theorem Regime.Ends.wrapsOnce {w : World} {x : Ending Value} (h : (wrappingOnce w.store).Ends w x) : x.WrapsOnce w := by
  cases h with
  | value _ kept log fits good =>
    exact .value (kept.valueWrapsOnce good) (fun t ht => kept.wrapsOnce ht) log fun e he u hu =>
      (fits e he).valueWrapsOnce kept hu
  | overflow _ kept log fits =>
    exact .overflow (fun t ht => kept.wrapsOnce ht) log fun e he u hu => (fits e he).valueWrapsOnce kept hu

namespace Eval

variable {n : Nat} {w w' : World} {v : Value}

theorem type_of_program {p : Program} {s : ScopeId} (hs : w.store.WrapsOnce s)
    (h : evaluate n (.program p) s w = .value v w') : v.type ≠ .returnValue := by
  cases n with
  | zero => cases h
  | succ n =>
    obtain ⟨_, w₁, henter, h⟩ := exists_of_bind h
    cases henter
    obtain ⟨u, w₂, hnode, h⟩ := exists_of_bind h
    obtain ⟨_, w₃, hleave, h⟩ := exists_of_bind h
    cases hleave
    cases h
    have hadmits : (Regime.wrappingOnce w.store).admits { w with log := .enter (.program p) s :: w.log }
        (.program p) s := ⟨Nat.le_refl _, hs⟩
    exact type_of_unwrapped (Regime.ends_statements ((Regime.kept_wrappingOnce w).relog _) hadmits n) hnode

theorem type_of_call {f : Value} {args : List Value} (hf : w.store.ValueWrapsOnce f)
    (hargs : ∀ a ∈ args, w.store.ValueWrapsOnce a) (htype : f.type = .function)
    (h : apply (evaluate n) f args w = .value v w') : v.type ≠ .returnValue := by
  cases f with
  | fn id params body scope =>
    rw [apply_eq_called] at h
    exact type_of_unwrapped (Regime.ends_called (Regime.kept_wrappingOnce w) (Regime.good_wrappingOnce hf _ (.self _))
      (fun a ha => Regime.good_wrappingOnce (hargs a ha)) n) h
  | _ => cases htype

/-- **Signals are unwrapped exactly once.**  Let no returned value that directly wraps another be in reach.  Then it is
so after an evaluation, from everything that it has given or bound and from wherever it was so before, and so it is after
a call; and neither a program nor a call of a function gives a returned value. -/
theorem signals_unwrapped_once (n : Nat) (w : World) :
    (∀ nd s, w.store.WrapsOnce s → (evaluate n nd s w).WrapsOnce w ∧
      ∀ p v w', nd = .program p → evaluate n nd s w = .value v w' → v.type ≠ .returnValue) ∧
    ∀ f args, w.store.ValueWrapsOnce f → (∀ a ∈ args, w.store.ValueWrapsOnce a) →
      (apply (evaluate n) f args w).WrapsOnce w ∧
      ∀ v w', f.type = .function → apply (evaluate n) f args w = .value v w' → v.type ≠ .returnValue := by
  have hw := Regime.kept_wrappingOnce w
  refine ⟨fun nd s hs => ⟨?_, ?_⟩, fun f args hf hargs => ⟨?_, ?_⟩⟩
  · have hadmits : (Regime.wrappingOnce w.store).admits w nd s := ⟨Nat.le_refl _, hs⟩
    exact (Regime.ends_evaluate hw hadmits n).wrapsOnce
  · rintro p v w' rfl h
    exact type_of_program hs h
  · exact (Regime.ends_apply hw (Regime.good_wrappingOnce hf) (fun a ha => Regime.good_wrappingOnce (hargs a ha))
      n).wrapsOnce
  · exact fun v w' htype h => type_of_call hf hargs htype h

/-- A returned value is an element of `xs` and becomes the argument of `f`, which gives it back. -/
theorem signals_unwrapped_once_stored :
    ∃ (w w₁ w₂ : World) (f v u : Value),
      w.store.bindings 0 = [("xs", .array 1 [.ret 0 (.int 5)]), ("f", f)] ∧ w.store.WrapsOnce 0 ∧
      evaluate 20 (.program (parse "f(xs[0])").program) 0 w = .value v w₁ ∧
      v.type ≠ .returnValue ∧ v.render = "5" ∧ w₁.store.WrapsOnce 0 ∧
      apply (evaluate 20) f [.ret 0 (.int 5)] w = .value u w₂ ∧
      u.type ≠ .returnValue ∧ u.render = "5" ∧ w₂.store.WrapsOnce 0 := by
  let f : Value := .fn 2 [⟨⟨1, 1⟩, "x"⟩] (.mk ⟨1, 1⟩ [.expr ⟨.ident, "x", ⟨1, 1⟩⟩ (.ident ⟨⟨1, 1⟩, "x"⟩)]) 0
  let w : World := ⟨⟨#[⟨none, [("xs", .array 1 [.ret 0 (.int 5)]), ("f", f)]⟩]⟩, 3, []⟩
  have hret : ∀ u, (Value.ret 0 (.int 5)).HasPart u → u.WrapsOnce ∧ u.type ≠ .function := by
    rintro u (_ | ⟨hu, hp⟩)
    · exact ⟨fun _ _ heq => (by cases heq; nofun), nofun⟩
    · rw [List.mem_singleton.1 hu] at hp
      cases hp with
      | self => exact ⟨fun _ _ => nofun, nofun⟩
      | held hu => cases hu
  have hs : w.store.WrapsOnce 0 := by
    rintro u ⟨t, name, v, -, hmem, hpart⟩
    obtain rfl : t = 0 := Nat.lt_one_iff.1 (w.store.lt_size_of_mem_bindings hmem)
    have hentries : (name, v) ∈ [("xs", Value.array 1 [.ret 0 (.int 5)]), ("f", f)] := hmem
    rcases List.mem_cons.1 hentries with heq | hentries
    · cases heq
      cases hpart with
      | self => exact fun _ _ => nofun
      | held hu hp =>
        rw [List.mem_singleton.1 hu] at hp
        exact (hret u hp).1
    · cases List.mem_singleton.1 hentries
      cases hpart with
      | self => exact fun _ _ => nofun
      | held hu => cases hu
  have hf : w.store.ValueWrapsOnce f := hs.bound (show ("f", f) ∈ w.store.bindings 0 by simp [w, Store.bindings])
  have hargs : ∀ a ∈ [Value.ret 0 (.int 5)], w.store.ValueWrapsOnce a := fun a ha u hu => by
    rw [List.mem_singleton.1 ha] at hu
    exact ⟨(hret u hu).1, fun _ _ _ _ heq => absurd (by rw [heq]; rfl) (hret u hu).2⟩
  have hprogram : ((evaluate 20 (.program (parse "f(xs[0])").program) 0).run w).1.map Value.render = some "5" := by
    decide +kernel
  have hcall : ((apply (evaluate 20) f [.ret 0 (.int 5)]).run w).1.map Value.render = some "5" := by decide +kernel
  obtain ⟨v, hrun, hrender⟩ := exists_value_of_map hprogram
  obtain ⟨u, hrun', hrender'⟩ := exists_value_of_map hcall
  obtain ⟨hfirst, htype⟩ := (signals_unwrapped_once 20 w).1 (.program (parse "f(xs[0])").program) 0 hs
  obtain ⟨hsecond, htype'⟩ := (signals_unwrapped_once 20 w).2 f _ hf hargs
  have hnone := htype _ v _ rfl hrun
  have hnone' := htype' u _ rfl hrun'
  rw [show w = { w with log := [] } from rfl, hrun] at hfirst
  rw [show w = { w with log := [] } from rfl, hrun'] at hsecond
  exact ⟨w, _, _, f, v, u, rfl, hs, hrun, hnone, hrender, hfirst.of_value 0 hs, hrun', hnone', hrender',
    hsecond.of_value 0 hs⟩

end Eval

end Monkey
