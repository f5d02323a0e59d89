import Mathlib.Algebra.Group.Nat.Defs
import Monkey.Proofs.Literals
import Monkey.Proofs.Noninterference
/-!
# Integers are machine words

Every integer of a session lies in the range of 64 bits (`Session.inRange_submissions`): literals are no larger than
that, arithmetic is wrapped into it, and lengths fit if no string and no array is too long for a machine.  The last is
asked of the values in the log alone, and the log only grows; so what an evaluation guarantees comes in two parts, its
events, which it adds whatever holds, and the range of its values, under a condition (`Eval.Ranged`).
-/
namespace Monkey

/-! ## Values in range -/

/-- The integers of 64 bits. -/
def Arith.IsWord (n : Int) : Prop := -2 ^ 63 ≤ n ∧ n ≤ 2 ^ 63 - 1

/-- The sign of the lowest 64 bits tells in which half of their range they lie. -/
theorem Arith.wrap_eq (n : Int) : wrap n = if n % 2 ^ 64 < 2 ^ 63 then n % 2 ^ 64 else n % 2 ^ 64 - 2 ^ 64 := by
  have hmask : (mask n : Int) = n % 2 ^ 64 := Int.toNat_of_nonneg (Int.emod_nonneg n (by decide))
  have hlt : mask n < 2 ^ 64 := by omega
  have hsign : (mask n).testBit 63 = decide (2 ^ 63 ≤ mask n) := by
    rw [Nat.testBit_eq_decide_div_mod_eq]
    exact decide_eq_decide.2 (by omega)
  unfold wrap
  rw [hsign, hmask]
  by_cases h : 2 ^ 63 ≤ mask n
  · rw [if_pos (decide_eq_true h), if_neg (by omega)]
    rfl
  · rw [if_neg (by simpa using h), if_pos (by omega)]

theorem Arith.isWord_wrap (n : Int) : IsWord (wrap n) := by
  unfold IsWord
  rw [wrap_eq]
  split <;> omega

theorem Arith.wrap_of_isWord {n : Int} (h : IsWord n) : wrap n = n := by
  unfold IsWord at h
  rw [wrap_eq]
  split <;> omega

theorem Arith.isWord_of_lt {n : Nat} (h : n < 2 ^ 63) : IsWord n := by
  unfold IsWord
  omega

def Key.InRange (key : Key) : Prop := ∀ n, key = .int n → Arith.IsWord n

namespace Value

/-- The integers that a value has in itself, apart from those of the values it holds, are words: an integer, the keys
of a hash, and the numbers in the body of a function. -/
def Words : Value → Prop
  | .int n => Arith.IsWord n
  | .hash _ pairs => ∀ kv ∈ pairs, kv.1.InRange
  | .fn _ _ body _ => (Node.block body).Valued
  | _ => True

/-- All integers in a value are words. -/
def InRange (v : Value) : Prop := ∀ u, v.HasPart u → u.Words

/-- A string or an array is not too long for a machine. -/
def Short : Value → Prop
  | .str s => s.length < 2 ^ 63
  | .array _ elements => elements.length < 2 ^ 63
  | _ => True

instance : (v : Value) → Decidable v.Short
  | .str s => inferInstanceAs (Decidable (s.length < 2 ^ 63))
  | .array _ elements => inferInstanceAs (Decidable (elements.length < 2 ^ 63))
  | .int _ | .bool _ | .null | .hash _ _ | .fn _ _ _ _ | .builtin _ | .ret _ _ | .error _ _ =>
    inferInstanceAs (Decidable True)

variable {v u : Value}

theorem InRange.words (h : v.InRange) : v.Words := h v (.self v)

theorem InRange.held (h : v.InRange) (hu : u ∈ v.held) : u.InRange := fun p hp => h p (.held hu hp)

theorem InRange.of_held (h : v.Words) (hheld : ∀ u ∈ v.held, u.InRange) : v.InRange := fun p hp => by
  cases hp with
  | self => exact h
  | held hu hp => exact hheld _ hu p hp

theorem InRange.unwrap (h : v.InRange) : v.unwrap.InRange := by
  rcases v.unwrap_cases with heq | hheld
  · rwa [heq]
  · exact h.held hheld

theorem inRange_int {n : Int} (h : Arith.IsWord n) : (Value.int n).InRange := .of_held h nofun

theorem inRange_bool (b : Bool) : (Value.bool b).InRange := .of_held trivial nofun

theorem inRange_str (s : String) : (Value.str s).InRange := .of_held trivial nofun

theorem inRange_null : Value.null.InRange := .of_held trivial nofun

theorem InRange.key {key : Key} (h : v.InRange) (hkey : v.key? = some key) : key.InRange := fun n hn => by
  subst hn
  cases v with
  | int m =>
    cases hkey
    exact h.words
  | bool => cases hkey
  | str => cases hkey
  | _ => cases hkey

theorem inRange_getD {v? : Option Value} (h : ∀ v ∈ v?, v.InRange) : (v?.getD .null).InRange := by
  cases v? with
  | none => exact inRange_null
  | some v => exact h v rfl

/-! ## Operators -/

theorem inRange_applyInt {op : BinaryOp} {a b : Int} (h : applyInt op a b = .ok v) : v.InRange := by
  unfold applyInt at h
  split at h
  · cases h
    exact inRange_int (Arith.isWord_wrap _)
  · cases h
    exact inRange_int (Arith.isWord_wrap _)
  · cases h
    exact inRange_int (Arith.isWord_wrap _)
  · split at h
    · cases h
      exact inRange_int (Arith.isWord_wrap _)
    · cases h
  all_goals
    cases h
    exact inRange_bool _

theorem inRange_applyBinary {op : BinaryOp} {a b : Value} (h : a.applyBinary op b = .ok v) : v.InRange := by
  unfold applyBinary at h
  split at h
  · exact inRange_applyInt h
  · cases h
    exact inRange_str _
  · cases h
    exact inRange_bool _
  · cases h
    exact inRange_bool _
  · cases h

theorem inRange_applyUnary {op : UnaryOp} (h : u.applyUnary op = .ok v) : v.InRange := by
  unfold applyUnary at h
  split at h
  · cases h
    exact inRange_bool _
  · cases h
    exact inRange_int (Arith.isWord_wrap _)
  · cases h

theorem inRange_applyIndex {a b : Value} (ha : a.InRange) (h : a.applyIndex b = .ok v) : v.InRange := by
  unfold applyIndex at h
  split at h
  · cases h
    unfold elementAt
    split
    · exact inRange_getD fun v hv => ha.held (List.mem_of_getElem? hv)
    · exact inRange_null
  · unfold lookupKey at h
    split at h
    · cases h
      refine inRange_getD fun v hv => ?_
      obtain ⟨l₁, l₂, hpairs, -⟩ := List.lookup_eq_some_iff.1 hv
      rw [hpairs] at ha
      exact ha.held (List.mem_map_of_mem (List.mem_append_right _ List.mem_cons_self))
    · cases h
  · cases h

end Value

/-! ## Worlds in range -/

/-- No value in the log is too long. -/
def World.Short (w : World) : Prop := ∀ e ∈ w.log, ∀ v ∈ e.value?, v.Short

instance (w : World) : Decidable w.Short := inferInstanceAs (Decidable (∀ e ∈ w.log, ∀ v ∈ e.value?, v.Short))

/-- The bound values and those in the log are in range. -/
structure World.InRange (w : World) : Prop where
  bound : ∀ (t : Nat) (name : String) (v : Value), (name, v) ∈ w.store.bindings t → v.InRange
  log : ∀ e ∈ w.log, ∀ v ∈ e.value?, v.InRange

namespace Eval

/-- The evaluation adds events to the log.  If `H` holds and nothing in the log gets too long, then it leaves a world in
range as it was, and `R` holds of its result. -/
def Ranged {α : Type} (H : Prop) (R : α → Prop) (x : Eval α) : Prop :=
  ∀ w, ∃ es, (x w).world.log = es ++ w.log ∧
    (H → w.InRange → (x w).world.Short → (x w).world.InRange ∧ ∀ a w', x w = .value a w' → R a)

section

variable {α β : Type} {H H' : Prop} {R R' : α → Prop} {T : β → Prop} {x : Eval α}

theorem Ranged.mono (hx : Ranged H R x) (hH : H' → H) (hR : ∀ a, R a → R' a) : Ranged H' R' x := fun w => by
  obtain ⟨es, hlog, h⟩ := hx w
  refine ⟨es, hlog, fun hH' hw hshort => ?_⟩
  obtain ⟨hw', ha⟩ := h (hH hH') hw hshort
  exact ⟨hw', fun a w' hrun => hR a (ha a w' hrun)⟩

theorem Ranged.bind {f : α → Eval β} (hx : Ranged H R x) (hf : ∀ a, Ranged (H ∧ R a) T (f a)) :
    Ranged H T (x >>= f) := fun w => by
  obtain ⟨es, hlog, h⟩ := hx w
  cases hrun : x w with
  | overflow w' =>
    rw [hrun] at hlog h
    rw [bind_overflow hrun]
    exact ⟨es, hlog, fun hH hw hshort => ⟨(h hH hw hshort).1, fun _ _ hb => nomatch hb⟩⟩
  | value a w' =>
    rw [hrun] at hlog h
    rw [bind_value hrun]
    obtain ⟨es', hlog', h'⟩ := hf a w'
    refine ⟨es' ++ es, by rw [hlog', List.append_assoc]; exact congrArg _ hlog, fun hH hw hshort => ?_⟩
    -- what is in the log of the first part is in the log at the end
    have hshort' : w'.Short := fun e he => hshort e (by rw [hlog']; exact List.mem_append_right _ he)
    obtain ⟨hw', ha⟩ := h hH hw hshort'
    exact h' ⟨hH, ha a w' rfl⟩ hw' hshort

theorem ranged_pure {a : α} (h : H → R a) : Ranged H R (pure a) := fun w =>
  ⟨[], rfl, fun hH hw _ => ⟨hw, fun b w' hrun => by cases hrun; exact h hH⟩⟩

theorem ranged_ite {c : Prop} [Decidable c] {y : Eval α} (hx : Ranged H R x) (hy : Ranged H R y) :
    Ranged H R (if c then x else y) := by
  split
  · exact hx
  · exact hy

theorem ranged_overflow : Ranged H R overflow := fun _ => ⟨[], rfl, fun _ hw _ => ⟨hw, nofun⟩⟩

/-- The value of an event that has been added is not too long. -/
theorem ranged_emit {e : Event} (h : H → ∀ v ∈ e.value?, v.InRange) :
    Ranged H (fun _ => ∀ v ∈ e.value?, v.Short) (emit e) := fun _ =>
  ⟨[e], rfl, fun hH hw hshort =>
    ⟨⟨hw.bound, List.forall_mem_cons.2 ⟨h hH, hw.log⟩⟩, fun _ _ _ => hshort e List.mem_cons_self⟩⟩

theorem ranged_lookup (s : ScopeId) (name : String) : Ranged H (fun v? => ∀ v ∈ v?, v.InRange) (lookup s name) :=
  fun w => ⟨[], rfl, fun _ hw _ => ⟨hw, fun v? w' hrun v hv => by
    cases hrun
    obtain ⟨t, ht⟩ := Store.exists_of_get? hv
    exact hw.bound t name v ht⟩⟩

theorem ranged_bindName (s : ScopeId) (name : String) {v : Value} (h : H → v.InRange) :
    Ranged H (fun _ => True) (bindName s name v) := fun w => by
  refine ⟨[.bind s name v], rfl, fun hH hw _ => ⟨⟨fun t name' u hu => ?_, ?_⟩, fun _ _ _ => trivial⟩⟩
  · rcases Store.mem_bindings_set hu with heq | hold
    · cases heq
      exact h hH
    · exact hw.bound t name' u hold
  · exact List.forall_mem_cons.2 ⟨fun u hu => by cases hu; exact h hH, hw.log⟩

theorem ranged_openScope (outer : Option ScopeId) : Ranged H (fun _ => True) (openScope outer) := fun w =>
  ⟨[], rfl, fun _ hw _ => ⟨⟨fun t name v hv => hw.bound t name v (Store.bindings_push w.store outer t ▸ hv), hw.log⟩,
    fun _ _ _ => trivial⟩⟩

theorem ranged_made {make : Identity → Value} (h : H → ∀ id, (make id).InRange) :
    Ranged H Value.InRange (identity >>= fun id => pure (make id)) := fun w =>
  ⟨[], rfl, fun hH hw _ => ⟨⟨hw.bound, hw.log⟩, fun v w' hrun => by cases hrun; exact h hH _⟩⟩

theorem ranged_fault (f : Fault) : Ranged H Value.InRange (fault f) :=
  ranged_made fun _ _ => .of_held trivial nofun

theorem ranged_array {vs : List Value} (h : H → ∀ v ∈ vs, v.InRange) : Ranged H Value.InRange (array vs) :=
  ranged_made fun hH _ => .of_held trivial (h hH)

theorem ranged_ofExcept {r : Except Fault Value} (h : H → ∀ v, r = .ok v → v.InRange) :
    Ranged H Value.InRange (ofExcept r) := by
  cases r with
  | ok v => exact ranged_pure fun hH => h hH v rfl
  | error f => exact ranged_fault f

end

/-! ## Calls -/

/-- What a node is evaluated to: a value in range that is not too long itself. -/
def Sound (v : Value) : Prop := v.InRange ∧ v.Short

theorem ranged_printAll {H : Prop} : ∀ vs : List Value, Ranged H (fun _ => True) (Builtin.printAll vs) := by
  intro vs
  induction vs with
  | nil => exact ranged_pure fun _ => trivial
  | cons v vs ih => exact (ranged_emit (e := .print v.render) (by rintro _ _ ⟨⟩)).bind fun _ => ih.mono And.left fun _ => id

theorem ranged_arrayArgument {H : Prop} (f : Builtin) {args : List Value} (hargs : H → ∀ v ∈ args, Sound v)
    {use : List Value → Eval Value} (h : ∀ elements, Ranged (H ∧ ∀ v ∈ elements, v.InRange) Value.InRange (use elements)) :
    Ranged H Value.InRange (match f.arrayArgument args with
      | .ok elements => use elements
      | .error fault => Eval.fault fault) := by
  split
  · rename_i elements hok
    obtain ⟨_, rfl⟩ := Builtin.arrayArgument_ok hok
    exact (h elements).mono (fun hH => ⟨hH, fun v hv => (hargs hH _ List.mem_cons_self).1.held hv⟩) fun _ => id
  · exact ranged_fault _

theorem ranged_callLen {H : Prop} {args : List Value} (hargs : H → ∀ v ∈ args, Sound v) :
    Ranged H Value.InRange (Builtin.callLen args) := by
  unfold Builtin.callLen
  split
  · exact ranged_pure fun hH => Value.inRange_int (Arith.isWord_of_lt (hargs hH _ List.mem_cons_self).2)
  · exact ranged_pure fun hH => Value.inRange_int (Arith.isWord_of_lt (hargs hH _ List.mem_cons_self).2)
  · exact ranged_fault _
  · exact ranged_fault _

theorem ranged_callPush {H : Prop} {args : List Value} (hargs : H → ∀ v ∈ args, Sound v) :
    Ranged H Value.InRange (Builtin.callPush args) := by
  unfold Builtin.callPush
  split
  · refine ranged_array fun hH v hv => ?_
    rcases List.mem_append.1 hv with hv | hv
    · exact (hargs hH _ List.mem_cons_self).1.held hv
    · rw [List.mem_singleton.1 hv]
      exact (hargs hH _ (List.mem_cons_of_mem _ List.mem_cons_self)).1
  · exact ranged_fault _
  · exact ranged_fault _

theorem ranged_callBuiltin {H : Prop} (f : Builtin) {args : List Value} (hargs : H → ∀ v ∈ args, Sound v) :
    Ranged H Value.InRange (f.call args) := by
  cases f with
  | len => exact ranged_callLen hargs
  | push => exact ranged_callPush hargs
  | puts => exact (ranged_printAll args).bind fun _ => ranged_pure fun _ => Value.inRange_null
  | first =>
    exact ranged_arrayArgument _ hargs fun elements => ranged_pure fun h =>
      Value.inRange_getD fun v hv => h.2 v (List.mem_of_mem_head? hv)
  | last =>
    exact ranged_arrayArgument _ hargs fun elements => ranged_pure fun h =>
      Value.inRange_getD fun v hv => h.2 v (List.mem_of_mem_getLast? hv)
  | rest =>
    refine ranged_arrayArgument _ hargs fun elements => ?_
    unfold Builtin.callRest
    split
    · exact ranged_pure fun _ => Value.inRange_null
    · exact ranged_array fun h v hv => h.2 v (List.mem_cons_of_mem _ hv)

theorem ranged_bindParams {H : Prop} (s : ScopeId) : ∀ (params : List Ident) {args : List Value},
    (H → ∀ v ∈ args, v.InRange) → Ranged H (fun _ => True) (bindParams s params args)
  | [], _, _ => ranged_pure fun _ => trivial
  | p :: params, _, hargs =>
    (ranged_bindName s p.name fun hH => Value.inRange_getD fun v hv => hargs hH v (List.mem_of_mem_head? hv)).bind
      fun _ => ranged_bindParams s params fun h v hv => hargs h.1 v (List.mem_of_mem_tail hv)

theorem ranged_named {H : Prop} (s : ScopeId) (name : String) : Ranged H Value.InRange (named s name) := by
  refine (ranged_lookup s name).bind fun v? => ?_
  split
  · exact ranged_pure fun h => h.2 _ rfl
  · split
    · exact ranged_pure fun _ => .of_held trivial nofun
    · exact ranged_fault _

section

variable {ev : Below} (hev : ∀ nd s, Ranged nd.Valued Sound (ev nd s))
include hev

/-- A node below, under a condition from which its numbers follow. -/
theorem ranged_below {H : Prop} {nd : Node} (s : ScopeId) (h : H → nd.Valued) : Ranged H Sound (ev nd s) :=
  (hev nd s).mono h fun _ => id

theorem ranged_apply {H : Prop} {callee : Value} {args : List Value} (hcallee : H → callee.InRange)
    (hargs : H → ∀ v ∈ args, Sound v) : Ranged H Value.InRange (apply ev callee args) := by
  cases callee with
  | builtin f => exact ranged_callBuiltin f hargs
  | fn id params body scope =>
    rw [apply_fn]
    refine (ranged_openScope _).bind fun t => ?_
    refine (ranged_bindParams t params fun h v hv => (hargs h.1 v hv).1).bind fun _ => ?_
    refine (ranged_below hev t fun h => (hcallee h.1.1).words).bind fun v => ?_
    exact ranged_pure fun h => h.2.1.unwrap
  | _ => exact ranged_fault _

/-! ## Expressions -/

theorem ranged_expressions {H : Prop} (s : ScopeId) : ∀ {es : List Expr}, (H → ∀ e ∈ es, (Node.expr e).Valued) →
    Ranged H (Yields (fun vs => ∀ v ∈ vs, Sound v) Value.InRange) (expressions ev s es)
  | [], _ => ranged_pure fun _ => List.forall_mem_nil _
  | e :: es, hes => by
    refine (ranged_below hev s fun hH => hes hH e List.mem_cons_self).bind fun v =>
      ranged_ite (ranged_pure fun h => h.2.1) ?_
    refine (ranged_expressions s fun h e he => hes h.1 e (List.mem_cons_of_mem _ he)).bind fun r => ?_
    cases r with
    | error u => exact ranged_pure fun h => h.2
    | ok us => exact ranged_pure fun h => List.forall_mem_cons.2 ⟨h.1.2, h.2⟩

theorem ranged_pairs {H : Prop} (s : ScopeId) : ∀ {entries : List (Expr × Expr)} {done : List (Key × Value)},
    (H → ValuedPairs entries) → (H → ∀ kv ∈ done, kv.1.InRange ∧ kv.2.InRange) →
      Ranged H (Yields (fun kvs => ∀ kv ∈ kvs, kv.1.InRange ∧ kv.2.InRange) Value.InRange) (pairs ev s done entries)
  | [], done, _, hdone => ranged_pure hdone
  | (keyExpr, valueExpr) :: entries, done, hentries, hdone => by
    refine (ranged_below hev s fun hH => (hentries hH _ List.mem_cons_self).1).bind fun k =>
      ranged_ite (ranged_pure fun h => h.2.1) ?_
    split
    · exact (ranged_fault _).bind fun v => ranged_pure fun h => h.2
    · rename_i key hkey
      refine (ranged_below hev s fun h => (hentries h.1 _ List.mem_cons_self).2).bind fun v =>
        ranged_ite (ranged_pure fun h => h.2.1) ?_
      refine ranged_pairs s (fun h pair hpair => hentries h.1.1 pair (List.mem_cons_of_mem _ hpair)) fun h kv hkv => ?_
      rcases Dict.mem_insert hkv with rfl | hkv
      · exact ⟨h.1.2.1.key hkey, h.2.1⟩
      · exact hdone h.1.1 kv hkv

theorem ranged_finish {H : Prop} (s : ScopeId) {e : Expr} {vs : List Value} (he : H → (Node.expr e).Valued)
    (hvs : H → ∀ v ∈ vs, Sound v) : Ranged H Value.InRange (finish ev s e vs) := by
  unfold finish
  split
  · exact ranged_named s _
  · refine ranged_pure fun hH => Value.inRange_int (Arith.isWord_of_lt ?_)
    exact Nat.lt_succ_of_le (Parse.le_of_integer (he hH).number)
  · exact ranged_pure fun _ => Value.inRange_bool _
  · exact ranged_pure fun _ => Value.inRange_str _
  · exact ranged_array fun hH v hv => (hvs hH v hv).1
  · exact ranged_ofExcept fun _ v => Value.inRange_applyUnary
  · exact ranged_ofExcept fun _ v => Value.inRange_applyBinary
  · split
    · exact (ranged_below hev s fun hH => (he hH).child (List.mem_cons_of_mem _ List.mem_cons_self)).mono id
        fun _ => And.left
    · split
      · refine (ranged_below hev s fun hH => (he hH).child ?_).mono id fun _ => And.left
        exact List.mem_cons_of_mem _ (List.mem_cons_of_mem _ List.mem_cons_self)
      · exact ranged_pure fun _ => Value.inRange_null
  · exact ranged_made fun hH _ => .of_held ((he hH).child (List.mem_append_right _ List.mem_cons_self)) nofun
  · exact ranged_apply hev (fun hH => (hvs hH _ List.mem_cons_self).1)
      fun hH v hv => hvs hH v (List.mem_cons_of_mem _ hv)
  · exact ranged_ofExcept fun hH v => Value.inRange_applyIndex (hvs hH _ List.mem_cons_self).1
  · exact ranged_pure fun _ => Value.inRange_null

theorem ranged_expr (s : ScopeId) (e : Expr) : Ranged (Node.expr e).Valued Value.InRange (expr ev s e) := by
  by_cases hhash : ∃ pos entries, e = .hash pos entries
  · obtain ⟨pos, entries, rfl⟩ := hhash
    refine (ranged_pairs hev s valuedPairs_of_hash fun _ => List.forall_mem_nil _).bind fun r => ?_
    cases r with
    | error v => exact ranged_pure fun h => h.2
    | ok kvs =>
      refine ranged_made fun h _ => .of_held (fun kv hkv => (h.2 kv hkv).1) fun u hu => ?_
      obtain ⟨kv, hkv, rfl⟩ := List.mem_map.1 hu
      exact (h.2 kv hkv).2
  · rw [expr_eq_finish fun pos entries h => hhash ⟨pos, entries, h⟩]
    refine (ranged_expressions hev s fun h operand ho => h.child (Expr.mem_children_of_operands ho)).bind fun r => ?_
    cases r with
    | error v => exact ranged_pure fun h => h.2
    | ok vs => exact ranged_finish hev s (fun h => h.1) fun h => h.2

/-! ## Statements -/

theorem ranged_statements {H : Prop} (s : ScopeId) : ∀ {ss : List Stmt} {last : Value},
    (H → ∀ st ∈ ss, (Node.stmt st).Valued) → (H → last.InRange) → Ranged H Value.InRange (statements ev s last ss)
  | [], _, _, hlast => ranged_pure hlast
  | st :: _, _, hss, _ => (ranged_below hev s fun hH => hss hH st List.mem_cons_self).bind fun _ =>
    ranged_ite (ranged_pure fun h => h.2.1)
      (ranged_statements s (fun h st hst => hss h.1 st (List.mem_cons_of_mem _ hst)) fun h => h.2.1)

theorem ranged_stmt (s : ScopeId) : ∀ st : Stmt, Ranged (Node.stmt st).Valued Value.InRange (stmt ev s st) := by
  intro st
  cases st with
  | expr _ _ => exact (ranged_below hev s fun h => h.child List.mem_cons_self).mono id fun _ => And.left
  | bind _ name _ =>
    refine (ranged_below hev s fun h => h.child (List.mem_cons_of_mem _ List.mem_cons_self)).bind fun _ =>
      ranged_ite (ranged_pure fun h => h.2.1) ?_
    exact (ranged_bindName s name.name fun h => h.2.1).bind fun _ => ranged_pure fun _ => Value.inRange_null
  | ret _ value =>
    cases value with
    | none => exact ranged_made fun _ _ => .of_held trivial (List.forall_mem_singleton.2 Value.inRange_null)
    | some value =>
      refine (ranged_below hev s fun h => h.child List.mem_cons_self).bind fun _ =>
        ranged_ite (ranged_pure fun h => h.2.1) ?_
      exact ranged_made fun h _ => .of_held trivial (List.forall_mem_singleton.2 h.2.1)

theorem ranged_node (s : ScopeId) (nd : Node) : Ranged nd.Valued Value.InRange (node ev s nd) := by
  cases nd with
  | program p =>
    refine (ranged_statements hev s (fun h st hst => h.child (List.mem_map_of_mem hst)) fun _ =>
      Value.inRange_null).bind fun v => ranged_pure fun h => h.2.unwrap
  | block b =>
    exact ranged_statements hev s (fun h st hst => h.child (List.mem_map_of_mem hst)) fun _ => Value.inRange_null
  | stmt st => exact ranged_stmt hev s st
  | expr e => exact ranged_expr hev s e

end

/-- **An evaluation makes no integer that is not a word**, whether it ends with a result or overflows. -/
theorem ranged_evaluate : ∀ (n : Nat) (nd : Node) (s : ScopeId), Ranged nd.Valued Sound (evaluate n nd s)
  | 0, _, _ => ranged_overflow
  | n + 1, nd, s => by
    refine (ranged_emit (e := .enter nd s) fun _ _ hv => nomatch hv).bind fun _ => ?_
    refine ((ranged_node (ranged_evaluate n) s nd).mono And.left fun _ => id).bind fun v => ?_
    refine (ranged_emit (e := .leave nd s v) fun h u hu => by cases hu; exact h.2).bind fun _ => ?_
    exact ranged_pure fun h => ⟨h.1.2, h.2 v rfl⟩

end Eval

/-! ## Sessions -/

theorem Eval.Ranged.run {α : Type} {H : Prop} {R : α → Prop} {x : Eval α} (hx : Ranged H R x) (hH : H) {w : World}
    (hw : w.InRange) (hshort : (x.run w).2.Short) : (x.run w).2.InRange ∧ ∀ a, (x.run w).1 = some a → R a := by
  obtain ⟨es, -, h⟩ := hx { w with log := [] }
  have hstart : World.InRange { w with log := [] } := ⟨hw.bound, List.forall_mem_nil _⟩
  unfold Eval.run at hshort ⊢
  cases hrun : x { w with log := [] } with
  | overflow w' =>
    rw [hrun] at hshort h
    exact ⟨(h hH hstart hshort).1, nofun⟩
  | value a w' =>
    rw [hrun] at hshort h
    obtain ⟨hw', ha⟩ := h hH hstart hshort
    exact ⟨hw', fun b hb => by cases hb; exact ha a w' rfl⟩

/-- The integers of a submission are words: those of its value, of all values in its log, and of all that is bound after
it. -/
structure Submission.InRange (r : Submission) : Prop where
  verdict : ∀ v, r.verdict = .value v → v.InRange
  world : r.session.world.InRange

namespace Session

variable {session : Session} {settings : Settings} {source : String}

/-- The submissions of sources to a session, one after the other. -/
def submissions (session : Session) : List (Settings × String) → List Submission
  | [] => []
  | (settings, source) :: rest =>
    session.submit settings source :: submissions (session.submit settings source).session rest

theorem inRange_submit (hw : session.world.InRange)
    (hshort : (session.submit settings source).session.world.Short) : (session.submit settings source).InRange := by
  by_cases h : (parse source).errors = []
  · rw [submit_of_no_errors _ _ h] at hshort ⊢
    obtain ⟨hworld, hvalue⟩ := (Eval.ranged_evaluate settings.nesting (.program (parse source).program) session.top).run
      (Parsed.valued _) hw hshort
    refine ⟨fun v hv => ?_, hworld⟩
    cases hrun : (session.run settings source).1 with
    | none =>
      rw [hrun] at hv
      cases hv
    | some u =>
      rw [hrun] at hv
      cases hv
      exact (hvalue _ hrun).1
  · rw [submit_of_errors _ _ h]
    exact ⟨nofun, hw⟩

theorem inRange_submissions : ∀ {session : Session} (_ : session.world.InRange) {inputs : List (Settings × String)},
    (∀ r ∈ session.submissions inputs, r.session.world.Short) → ∀ r ∈ session.submissions inputs, r.InRange
  | _, _, [], _ => List.forall_mem_nil _
  | _, hw, (settings, source) :: rest, hshort => by
    obtain ⟨hfirst, hrest⟩ := List.forall_mem_cons.1 hshort
    have h := inRange_submit hw hfirst
    exact List.forall_mem_cons.2 ⟨h, inRange_submissions h.world hrest⟩

theorem inRange_start : start.world.InRange where
  bound t name v hv := by
    rw [bindings_start] at hv
    cases hv
  log := List.forall_mem_nil _

end Session

/-- The numbers below a node are those of the trees that it visits on its walk. -/
theorem Node.Valued.walk {nd : Node} (h : nd.Valued) (depth : Int) : ∀ q ∈ nd.walk depth, q.2.Valued :=
  Node.forall_mem_walk (fun _ h _ hc => h.child hc) h

/-- **Every integer is a machine word.**  In a session of any sources, from a fresh top scope on, in which no value gets
longer than a machine allows: every number in a tree, accepted or not, and every integer in a value that a node has been
evaluated to, that has been bound to a name, or that is a part of such a value. -/
theorem Session.integers_are_words (inputs : List (Settings × String))
    (hshort : ∀ r ∈ start.submissions inputs, r.session.world.Short) :
    (∀ input ∈ inputs, ∀ q ∈ (Node.program (parse input.2).program).walk 0, ∀ pos literal value,
      q.2 = .expr (.int pos literal value) → Arith.IsWord value) ∧
      ∀ r ∈ start.submissions inputs, r.InRange := by
  refine ⟨fun input _ q hq pos literal value heq => ?_, inRange_submissions inRange_start hshort⟩
  have hvalued := (Parsed.valued (.ofSource input.2)).walk 0 q hq
  rw [heq] at hvalued
  exact Arith.isWord_of_lt (Nat.lt_succ_of_le (Parse.le_of_integer hvalued.number))

/-- The least integer, negated and divided by minus one: both times it comes out again. -/
theorem Session.integers_are_words_least : ∃ source,
    ((start.submissions [(⟨false, 20⟩, source)]).map (·.verdict.texts)) =
        [["[-9223372036854775808, -9223372036854775808, 3]"]] ∧
      ∀ r ∈ start.submissions [(⟨false, 20⟩, source)], r.InRange :=
  ⟨"let a = -9223372036854775807 - 1; [-a, a / -1, len(\"abc\")]", by decide +kernel,
    (integers_are_words _ (by decide +kernel)).2⟩

end Monkey
