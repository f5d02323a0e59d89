import Monkey.Proofs.Delivery
import Monkey.Proofs.Ledger
import Monkey.Proofs.Repetition
/-!
# Equality by creation

The operator `==` is defined on all values, and it is equality of what it looks at in a value (`Value.core`): the
identity of what has one, the contents of everything else.  In a state that runs get to, an identity is a place in the
ledger, and so arrays, hashes and functions are equal just if they are the same entry, that is, if they were made in the
same step.  What a literal, `rest` or `push` makes is a new entry; what is bound, passed, returned or taken out of an
array or a hash stays the entry that it was (`Eval.equality_by_creation`).
-/
namespace Monkey

namespace Value

/-- The operator `==` says so. -/
def Equal (a b : Value) : Prop := a.applyBinary .eq b = .ok (.bool true)

/-- Arrays, hashes and functions. -/
def IsObject (v : Value) : Prop := v.type = .array ∨ v.type = .hash ∨ v.type = .function

/-- What equality looks at: a value with an identity is left with nothing else. -/
def core : Value → Value
  | array id _ => array id []
  | hash id _ => hash id []
  | fn id _ _ _ => fn id [] (.mk .start []) 0
  | ret id _ => ret id .null
  | error id _ => error id (.custom "")
  | v => v

theorem same_iff_core (a b : Value) : a.same b = true ↔ a.core = b.core := by
  cases a <;> cases b <;> simp [same, core]

theorem equal_iff_core {a b : Value} : a.Equal b ↔ a.core = b.core := by
  rw [Equal, applyBinary_eq, ← same_iff_core]
  simp

@[simp] theorem type_core (v : Value) : v.core.type = v.type := by
  cases v <;> rfl

@[simp] theorem identity?_core (v : Value) : v.core.identity? = v.identity? := by
  cases v <;> rfl

theorem equal_equivalence : Equivalence Equal where
  refl _ := equal_iff_core.2 rfl
  symm h := equal_iff_core.2 (equal_iff_core.1 h).symm
  trans h h' := equal_iff_core.2 ((equal_iff_core.1 h).trans (equal_iff_core.1 h'))

theorem Equal.type_eq {a b : Value} (h : a.Equal b) : a.type = b.type := by
  rw [← type_core a, equal_iff_core.1 h, type_core]

theorem Equal.identity_eq {a b : Value} (h : a.Equal b) : a.identity? = b.identity? := by
  rw [← identity?_core a, equal_iff_core.1 h, identity?_core]

/-- Equality never fails, and it is false between values of different types. -/
theorem equality_decides (a b : Value) : ∃ r : Bool, a.applyBinarySpelled "==" b = .ok (.bool r) ∧
    a.applyBinarySpelled "!=" b = .ok (.bool !r) ∧ (a.Equal b ↔ r = true) ∧ (a.type ≠ b.type → r = false) := by
  have hequal : a.Equal b ↔ a.same b = true := equal_iff_core.trans (same_iff_core a b).symm
  refine ⟨a.same b, applyBinary_eq a b, applyBinary_notEq a b, hequal, fun htype => ?_⟩
  cases hsame : a.same b with
  | false => rfl
  | true => exact absurd (hequal.2 hsame).type_eq htype

theorem IsObject.identity {v : Value} (h : v.IsObject) : ∃ i, v.identity? = some i := by
  cases v <;> first | exact ⟨_, rfl⟩ | exact h.elim nofun (·.elim nofun nofun)

/-- Where identities are places in a ledger, equal objects are the same entry. -/
theorem equal_iff_entry {made : List Value} {a b : Value} (ha : a.Recorded made) (hb : b.Recorded made)
    (hobject : a.IsObject) : a.Equal b ↔ ∃ i : Identity, made[i]? = some a ∧ made[i]? = some b := by
  constructor
  · intro h
    obtain ⟨i, hi⟩ := hobject.identity
    exact ⟨i, ha a i (.self a) hi, hb b i (.self b) (h.identity_eq ▸ hi)⟩
  · rintro ⟨i, hia, hib⟩
    rw [hia] at hib
    cases hib
    exact equal_equivalence.refl a

end Value

namespace World

/-- What is bound or at hand, at any depth. -/
def There (w : World) (hand : List Value) (u : Value) : Prop := w.Has u ∨ ∃ v ∈ hand, v.HasPart u

theorem Ledger.there {w : World} {made hand : List Value} (h : w.Ledger made) (hhand : ∀ v ∈ hand, v.Recorded made)
    {u : Value} (hu : w.There hand u) : u.Recorded made := by
  rcases hu with ⟨t, name, v, hv, hpart⟩ | ⟨v, hv, hpart⟩
  · exact (h.bound t name v hv).part hpart
  · exact (hhand v hv).part hpart

/-- Every state that runs get to has a ledger, and what is at hand is recorded there. -/
theorem Reachable.ledger {w : World} {hand : List Value} (h : w.Reachable hand) :
    ∃ made, w.Ledger made ∧ ∀ v ∈ hand, v.Recorded made := by
  have hmono {made made' hand : List Value} (grows : made <+: made') (h : ∀ v ∈ hand, v.Recorded made) :
      ∀ v ∈ hand, v.Recorded made' := fun v hv => (h v hv).mono grows
  induction h with
  | start =>
    refine ⟨[], ⟨rfl, fun i v hv => ?_, fun t name v hv => ?_⟩, List.forall_mem_nil _⟩
    · cases hv
    · simp [empty, Store.bindings, Store.empty] at hv
  | @evaluated w w' hand n nd s v h hs hrun ih =>
    obtain ⟨made, hw, hhand⟩ := ih
    obtain ⟨made', grows, ledger, result⟩ := (Eval.adds_evaluate n made nd s).value hw hrun
    exact ⟨made', ledger, List.forall_mem_cons.2 ⟨result, hmono grows hhand⟩⟩
  | @exhausted w w' hand n nd s h hs hrun ih =>
    obtain ⟨made, hw, hhand⟩ := ih
    have hends := Eval.adds_evaluate n made nd s w hw
    rw [hrun] at hends
    cases hends with
    | overflow grows ledger => exact ⟨_, ledger, hmono grows hhand⟩
  | bound h hv ih =>
    obtain ⟨made, hw, hhand⟩ := ih
    exact ⟨made, hw, List.forall_mem_cons.2 ⟨hw.bound _ _ _ hv, hhand⟩⟩
  | held h hv hu ih =>
    obtain ⟨made, hw, hhand⟩ := ih
    exact ⟨made, hw, List.forall_mem_cons.2 ⟨(hhand _ hv).held hu, hhand⟩⟩
  | plain h hv ih =>
    obtain ⟨made, hw, hhand⟩ := ih
    exact ⟨made, hw, List.forall_mem_cons.2 ⟨Value.recorded_plain hv, hhand⟩⟩
  | @made w hand v h hv htype hheld ih =>
    obtain ⟨made, hw, hhand⟩ := ih
    have hnew := hw.add hv fun u hu => hhand u (hheld u hu)
    exact ⟨_, hnew, List.forall_mem_cons.2 ⟨hnew.last.2, hmono (List.prefix_append _ _) hhand⟩⟩
  | @function w hand s h hs params body ih =>
    obtain ⟨made, hw, hhand⟩ := ih
    have hnew : World.Ledger { w with fresh := w.fresh + 1 } (made ++ [.fn w.fresh params body s]) :=
      hw.add rfl (List.forall_mem_nil _)
    exact ⟨_, hnew, List.forall_mem_cons.2 ⟨hnew.last.2, hmono (List.prefix_append _ _) hhand⟩⟩
  | bind h hv s name ih =>
    obtain ⟨made, hw, hhand⟩ := ih
    exact ⟨made, hw.bind (hhand _ hv) s name, hhand⟩
  | opened h houter ih =>
    obtain ⟨made, hw, hhand⟩ := ih
    exact ⟨made, hw.push _, hhand⟩
  | logged h log ih =>
    obtain ⟨made, hw, hhand⟩ := ih
    exact ⟨made, hw.relog log, hhand⟩

/-- In such a state, an identity means one object. -/
theorem Reachable.eq_of_identity {w : World} {hand : List Value} (h : w.Reachable hand) {u v : Value}
    (hu : w.There hand u) (hv : w.There hand v) {i : Identity} (hui : u.identity? = some i) (hvi : v.identity? = some i) :
    u = v := by
  obtain ⟨made, hw, hhand⟩ := h.ledger
  have hentry : made[i]? = some u := hw.there hhand hu u i (.self u) hui
  rw [hw.there hhand hv v i (.self v) hvi, Option.some.injEq] at hentry
  exact hentry.symm

/-- A value was made last, after all that is bound and all that it holds, and is unequal to everything before. -/
structure New (w : World) (before : List Value) (v : Value) : Prop where
  ledger : w.Ledger (before ++ [v])
  bound : ∀ (t : Nat) (name : String) (u : Value), (name, u) ∈ w.store.bindings t → u.Recorded before
  held : ∀ u ∈ v.held, u.Recorded before
  unequal : ∀ u : Value, u.Recorded before → ¬ v.Equal u

theorem New.relog {w : World} {before : List Value} {v : Value} (h : w.New before v) (log : List Event) :
    World.New { w with log := log } before v := ⟨h.ledger.relog log, h.bound, h.held, h.unequal⟩

theorem Ledger.new {w : World} {before : List Value} (hw : w.Ledger before) {v : Value}
    (hid : v.identity? = some w.fresh) (hheld : ∀ u ∈ v.held, u.Recorded before) :
    World.New { w with fresh := w.fresh + 1 } before v where
  ledger := hw.add hid hheld
  bound := hw.bound
  held := hheld
  unequal u hu h := by
    -- whatever is equal would stand behind the end of the ledger
    have hentry := hu u w.fresh (.self u) (h.identity_eq ▸ hid)
    rw [← hw.length, List.getElem?_eq_none (Nat.le_refl _)] at hentry
    cases hentry

end World

namespace Eval

/-! ## What makes an object -/

/-- The evaluation ends with an error, or it has made its value last. -/
def Creates (made : List Value) (x : Eval Value) : Prop :=
  ∀ (w : World) (v : Value) (w' : World), w.Ledger made → x w = .value v w' →
    v.isError = true ∨ v.IsObject ∧ ∃ before, made <+: before ∧ w'.New before v

section

variable {α : Type} {made : List Value} {R : List Value → α → Prop} {x : Eval α}

theorem Adds.creates {f : α → Eval Value} (hx : Adds made R x) (hf : ∀ made' a, R made' a → Creates made' (f a)) :
    Creates made (x >>= f) := fun w v w'' hw h => by
  obtain ⟨a, w', hxa, hfa⟩ := exists_of_bind h
  obtain ⟨made', grows, ledger, result⟩ := hx.value hw hxa
  refine (hf made' a result w' v w'' ledger hfa).imp_right fun ⟨hobject, before, grows', hnew⟩ => ?_
  exact ⟨hobject, before, grows.trans grows', hnew⟩

theorem creates_made {make : Identity → Value} (hid : ∀ id, (make id).identity? = some id)
    (hobject : ∀ id, (make id).IsObject) (hheld : ∀ id, ∀ u ∈ (make id).held, u.Recorded made) :
    Creates made (identity >>= fun id => pure (make id)) := fun w v w' hw h => by
  cases h
  exact .inr ⟨hobject _, made, List.prefix_rfl, hw.new (hid _) (hheld _)⟩

theorem creates_error {v : Value} (h : v.isError = true) : Creates made (pure v) := fun _ _ _ _ hv => by
  cases hv
  exact .inl h

theorem creates_fault (f : Fault) : Creates made (fault f) := fun _ _ _ _ hv => by
  cases hv
  exact .inl rfl

theorem creates_array {elements : List Value} (h : ∀ v ∈ elements, v.Recorded made) : Creates made (array elements) :=
  creates_made (fun _ => rfl) (fun _ => .inl rfl) fun _ => h

theorem creates_hash {pairs : List (Key × Value)} (h : ∀ kv ∈ pairs, kv.2.Recorded made) : Creates made (hash pairs) :=
  creates_made (fun _ => rfl) (fun _ => .inr (.inl rfl)) fun _ _ hu => by
    obtain ⟨kv, hkv, rfl⟩ := List.mem_map.1 hu
    exact h kv hkv

theorem creates_function (params : List Ident) (body : Block) (s : ScopeId) : Creates made (function params body s) :=
  creates_made (fun _ => rfl) (fun _ => .inr (.inr rfl)) fun _ => nofun

end

section

variable {ev : Below}

theorem isError_of_expressions (s : ScopeId) (es : List Expr) : ∀ {w w' : World} {v : Value},
    expressions ev s es w = .value (.error v) w' → v.isError = true := by
  induction es with
  | nil => exact fun h => nomatch h
  | cons e es ih =>
    intro w w' v h
    obtain ⟨u, w₁, -, hrest⟩ := exists_of_bind h
    split at hrest
    · cases hrest
      assumption
    · obtain ⟨r, w₂, hr, hend⟩ := exists_of_bind hrest
      cases r with
      | ok vs => cases hend
      | error u =>
        cases hend
        exact ih hr

theorem isError_of_pairs (s : ScopeId) (entries : List (Expr × Expr)) : ∀ {done : List (Key × Value)} {w w' : World}
    {v : Value}, pairs ev s done entries w = .value (.error v) w' → v.isError = true := by
  induction entries with
  | nil => exact fun h => nomatch h
  | cons entry entries ih =>
    intro done w w' v h
    obtain ⟨k, w₁, -, hrest⟩ := exists_of_bind h
    by_cases hk : k.isError = true
    · rw [if_pos hk] at hrest
      cases hrest
      exact hk
    · rw [if_neg hk] at hrest
      cases hkey : k.key? with
      | none =>
        rw [hkey] at hrest
        cases hrest
        rfl
      | some key =>
        rw [hkey] at hrest
        obtain ⟨u, w₂, -, hrest⟩ := exists_of_bind hrest
        split at hrest
        · cases hrest
          assumption
        · exact ih hrest

variable (hev : ∀ made nd s, Adds made Value.Recorded (ev nd s)) {made : List Value}
include hev

theorem creates_arrayLiteral (s : ScopeId) (pos : Pos) (es : List Expr) :
    Creates made (expr ev s (.array pos es)) := by
  refine ((adds_expressions hev s es made).and (P := fun r => ∀ v, r = .error v → v.isError = true)
    fun w r w' h v hr => isError_of_expressions s es (hr ▸ h)).creates fun made' r hr => ?_
  cases r with
  | ok vs => exact creates_array hr.1
  | error v => exact creates_error (hr.2 v rfl)

theorem creates_hashLiteral (s : ScopeId) (pos : Pos) (entries : List (Expr × Expr)) :
    Creates made (expr ev s (.hash pos entries)) := by
  refine ((adds_pairs hev s entries [] nofun).and (P := fun r => ∀ v, r = .error v → v.isError = true)
    fun w r w' h v hr => isError_of_pairs s entries (hr ▸ h)).creates fun made' r hr => ?_
  cases r with
  | ok kvs => exact creates_hash hr.1
  | error v => exact creates_error (hr.2 v rfl)

end

/-- A node creates what its rule creates. -/
theorem creates_node {n : Nat} {made : List Value} {nd : Node} {s : ScopeId}
    (h : ∀ ev : Below, (∀ made nd s, Adds made Value.Recorded (ev nd s)) → Creates made (node ev s nd)) :
    Creates made (evaluate n nd s) := by
  cases n with
  | zero => exact fun _ _ _ _ hx => nomatch hx
  | succ n =>
    intro w v w' hw hx
    obtain ⟨_, w₁, henter, hx⟩ := exists_of_bind hx
    cases henter
    obtain ⟨u, w₂, hnode, hx⟩ := exists_of_bind hx
    cases hx
    refine (h (evaluate n) (adds_evaluate n) _ v w₂ (hw.relog _) hnode).imp_right ?_
    exact fun ⟨hobject, before, grows, hnew⟩ => ⟨hobject, before, grows, hnew.relog _⟩

/-- Evaluations that make an object if they do not fail: of the three literals, and of the calls of `rest` and `push`
with values at hand.  Only of an array without elements `rest` makes nothing; it is null. -/
inductive Making (hand : List Value) : Eval Value → Prop
  | array (n : Nat) (s : ScopeId) (pos : Pos) (elements : List Expr) :
      Making hand (evaluate n (.expr (.array pos elements)) s)
  | hash (n : Nat) (s : ScopeId) (pos : Pos) (entries : List (Expr × Expr)) :
      Making hand (evaluate n (.expr (.hash pos entries)) s)
  | function (n : Nat) (s : ScopeId) (pos : Pos) (params : List Ident) (body : Block) :
      Making hand (evaluate n (.expr (.fn pos params body)) s)
  | rest (ev : Below) {args : List Value} (hargs : ∀ a ∈ args, a ∈ hand) (hne : ∀ id, args ≠ [.array id []]) :
      Making hand (apply ev (.builtin .rest) args)
  | push (ev : Below) {args : List Value} (hargs : ∀ a ∈ args, a ∈ hand) : Making hand (apply ev (.builtin .push) args)

theorem creates_rest {made args : List Value} (hargs : ∀ a ∈ args, a.Recorded made)
    (hne : ∀ id, args ≠ [.array id []]) : Creates made (Builtin.rest.call args) := by
  cases hok : Builtin.rest.arrayArgument args with
  | error f =>
    have hcall : Builtin.rest.call args = fault f := by rw [Builtin.call, hok]
    rw [hcall]
    exact creates_fault f
  | ok elements =>
    have hcall : Builtin.rest.call args = Builtin.callRest elements := by rw [Builtin.call, hok]
    obtain ⟨id, rfl⟩ := Builtin.arrayArgument_ok hok
    rw [hcall]
    cases elements with
    | nil => exact absurd rfl (hne id)
    | cons v tail =>
      exact creates_array fun u hu => (hargs _ List.mem_cons_self).held (List.mem_cons_of_mem v hu)

theorem creates_push {made args : List Value} (hargs : ∀ a ∈ args, a.Recorded made) :
    Creates made (Builtin.push.call args) := by
  show Creates made (Builtin.callPush args)
  unfold Builtin.callPush
  split
  · rename_i id elements v
    refine creates_array fun u hu => ?_
    rcases List.mem_append.1 hu with hu | hu
    · exact (hargs _ List.mem_cons_self).held hu
    · exact hargs u (List.mem_cons_of_mem _ hu)
  · exact creates_fault _
  · exact creates_fault _

theorem Making.creates {hand made : List Value} {x : Eval Value} (h : Making hand x)
    (hhand : ∀ v ∈ hand, v.Recorded made) : Creates made x := by
  cases h with
  | array n s pos elements => exact creates_node fun ev hev => creates_arrayLiteral hev s pos elements
  | hash n s pos entries => exact creates_node fun ev hev => creates_hashLiteral hev s pos entries
  | function n s pos params body => exact creates_node fun _ _ => creates_function params body s
  | rest ev hargs hne => exact creates_rest (fun a ha => hhand a (hargs a ha)) hne
  | push ev hargs => exact creates_push fun a ha => hhand a (hargs a ha)

/-- **Objects are equal just if they were made in the same step.**  The operator `==` never fails and is an equivalence;
it is false between values of different types, and `!=` is its negation.  Every state that runs get to has a ledger, to
which evaluations add; two arrays, hashes or functions that are there are equal just if they are the same entry.  What a
literal, `rest` or `push` makes is entered last, and is unequal to all that was there and to all that was made before
it; `rest` makes nothing of an empty array.  Whatever hands a value on hands on the value itself. -/
theorem equality_by_creation {w : World} {hand : List Value} (h : w.Reachable hand) :
    (∀ a b : Value, ∃ r : Bool, a.applyBinarySpelled "==" b = .ok (.bool r) ∧
      a.applyBinarySpelled "!=" b = .ok (.bool !r) ∧ (a.Equal b ↔ r = true) ∧ (a.type ≠ b.type → r = false)) ∧
    Equivalence Value.Equal ∧
    (∃ made, w.Ledger made ∧ (∀ v ∈ hand, v.Recorded made) ∧
      (∀ n nd s v w', evaluate n nd s w = .value v w' → ∃ made', made <+: made' ∧ w'.Ledger made' ∧ v.Recorded made') ∧
      (∀ a b : Value, w.There hand a → w.There hand b → a.IsObject →
        (a.Equal b ↔ ∃ i : Identity, made[i]? = some a ∧ made[i]? = some b)) ∧
      ∀ x, Making hand x → ∀ v w', x w = .value v w' → v.isError = true ∨
        v.IsObject ∧ (∀ u, w.There hand u → ¬ v.Equal u) ∧ ∃ before, made <+: before ∧ w'.New before v) ∧
    (∀ ev id, apply ev (.builtin .rest) [.array id []] w = .value .null w) ∧
    ∀ ev, Delivery ev := by
  obtain ⟨made, hw, hhand⟩ := h.ledger
  refine ⟨Value.equality_decides, Value.equal_equivalence, ⟨made, hw, hhand, ?_, fun a b ha hb hobject => ?_, ?_⟩,
    fun _ _ => rfl, delivery⟩
  · exact fun n nd s v w' hv => (adds_evaluate n made nd s).value hw hv
  · exact Value.equal_iff_entry (hw.there hhand ha) (hw.there hhand hb) hobject
  · intro x hx v w' hv
    refine (hx.creates hhand w v w' hw hv).imp_right fun ⟨hobject, before, grows, hnew⟩ => ?_
    exact ⟨hobject, fun u hu => hnew.unequal u ((hw.there hhand hu).mono grows), before, grows, hnew⟩

/-- Two arrays of the same elements: the name `a` means one of them, and the literal makes the other. -/
theorem equality_by_creation_array :
    ∃ (w w' : World) (a v last : Value), w.Reachable [a, last] ∧
      Making [a, last] (evaluate 20 (.expr (.array .start [.int .start "1" 1])) 0) ∧
      evaluate 20 (.expr (.array .start [.int .start "1" 1])) 0 w = .value v w' ∧
      a.render = "[1]" ∧ v.render = "[1]" ∧ v.applyBinarySpelled "==" a = .ok (.bool false) ∧
      w.store.get? 0 "a" = some a ∧ (named 0 "a").Delivers w a ∧ a.applyBinarySpelled "==" a = .ok (.bool true) := by
  have hruns : ∃ w last, evaluate 20 (.program (parse "let a = [1]").program) 0
        { Session.start.world with log := [] } = .value last w ∧
      ((w.store.bindings 0).lookup "a").map Value.render = some "[1]" ∧
      ((evaluate 20 (.expr (.array .start [.int .start "1" 1])) 0).run w).1.map (fun v => (v.render, v.isError)) =
        some ("[1]", false) := by
    have hsome : ((evaluate 20 (.program (parse "let a = [1]").program) 0).run
      Session.start.world).1.isSome = true := by decide +kernel
    obtain ⟨last, hlast⟩ := exists_value_of_run hsome
    exact ⟨_, last, hlast, by decide +kernel, by decide +kernel⟩
  obtain ⟨w, last, hlast, ha, hv⟩ := hruns
  obtain ⟨a, hlookup, hrender⟩ := Option.map_eq_some_iff.1 ha
  obtain ⟨v, hv, hresult⟩ := exists_value_of_map hv
  obtain ⟨hrender', herror⟩ := Prod.ext_iff.1 hresult
  have hget : w.store.get? 0 "a" = some a := Store.get?_of_lookup hlookup
  obtain ⟨t, hmem⟩ := Store.exists_of_get? hget
  have hw : World.Reachable { w with log := [] } [a, last] :=
    (((World.reachable_start.logged []).evaluated (by decide) hlast).bound hmem).logged []
  have hmaking : Making [a, last] (evaluate 20 (.expr (.array .start [.int .start "1" 1])) 0) := .array _ _ _ _
  obtain ⟨hdecides, hequivalence, ⟨made, -, -, -, -, hcreates⟩, -, hdelivers⟩ := equality_by_creation hw
  refine ⟨{ w with log := [] }, _, a, v, last, hw, hmaking, hv, hrender, hrender', ?_, hget,
    (hdelivers (evaluate 20)).lookup hget, ?_⟩
  · rcases hcreates _ hmaking v _ hv with hfail | ⟨-, hunequal, -⟩
    · exact absurd (hfail.symm.trans herror) (by decide)
    · obtain ⟨r, heq, -, hiff, -⟩ := hdecides v a
      have hne := hunequal a (.inl ⟨t, "a", a, hmem, .self a⟩)
      rw [hiff, Bool.not_eq_true] at hne
      rw [heq, hne]
  · obtain ⟨r, heq, -, hiff, -⟩ := hdecides a a
    rw [heq, hiff.1 (hequivalence.refl a)]

end Eval

end Monkey
