import Monkey.Proofs.Objects
import Monkey.Proofs.Relocation
import Mathlib.Logic.Function.Basic
/-!
# Values under other numbers

A value with its identities, its scopes and the places in its functions replaced by others.  What can be told of a value
in the language, its type, its truth, its rendering, what it holds, is told of the renamed value alike; and since
different identities are renamed to different ones, so is equality.  Operators and builtin functions therefore do with
renamed values what they do with the values, and give the renamed result.
-/
namespace Monkey

/-- Other identities and other scopes, different ones for different ones, and other places. -/
structure Renaming where
  identity : Identity → Identity
  scope : ScopeId → ScopeId
  place : Pos → Pos
  identity_injective : Function.Injective identity
  scope_injective : Function.Injective scope

/-- Only the places change. -/
def Renaming.placing (place : Pos → Pos) : Renaming := ⟨id, id, place, Function.injective_id, Function.injective_id⟩

theorem Dict.lookup_map_snd {κ α β : Type} [BEq κ] (f : α → β) (key : κ) (dict : List (κ × α)) :
    (dict.map fun e => (e.1, f e.2)).lookup key = (dict.lookup key).map f := by
  induction dict with
  | nil => rfl
  | cons e dict ih =>
    rw [List.map_cons, List.lookup_cons, List.lookup_cons, ih]
    cases key == e.1 <;> rfl

namespace Value

mutual

def rename (r : Renaming) : Value → Value
  | int n => int n
  | bool b => bool b
  | str s => str s
  | null => null
  | array id elements => array (r.identity id) (renameAll r elements)
  | hash id pairs => hash (r.identity id) (renamePairs r pairs)
  | fn id params body scope =>
    fn (r.identity id) (params.map (Ident.relocate r.place)) (body.relocate r.place) (r.scope scope)
  | builtin f => builtin f
  | ret id v => ret (r.identity id) (v.rename r)
  | error id fault => error (r.identity id) fault

def renameAll (r : Renaming) : List Value → List Value
  | [] => []
  | v :: rest => v.rename r :: renameAll r rest

def renamePairs (r : Renaming) : List (Key × Value) → List (Key × Value)
  | [] => []
  | (key, v) :: rest => (key, v.rename r) :: renamePairs r rest

end

variable (r : Renaming)

@[simp] theorem renameAll_eq (vs : List Value) : renameAll r vs = vs.map (rename r) := by
  induction vs with
  | nil => rfl
  | cons v vs ih => rw [renameAll, ih, List.map_cons]

@[simp] theorem renamePairs_eq (pairs : List (Key × Value)) :
    renamePairs r pairs = pairs.map fun kv => (kv.1, kv.2.rename r) := by
  induction pairs with
  | nil => rfl
  | cons kv pairs ih => rw [renamePairs, ih, List.map_cons]

@[simp] theorem type_rename (v : Value) : (v.rename r).type = v.type := by
  cases v <;> rfl

@[simp] theorem key?_rename (v : Value) : (v.rename r).key? = v.key? := by
  cases v <;> rfl

@[simp] theorem isTruthy_rename (v : Value) : (v.rename r).isTruthy = v.isTruthy := by
  cases v <;> rfl

@[simp] theorem isError_rename (v : Value) : (v.rename r).isError = v.isError := by
  cases v <;> rfl

@[simp] theorem isSignal_rename (v : Value) : (v.rename r).isSignal = v.isSignal := by
  cases v <;> rfl

theorem unwrap_rename (v : Value) : (v.rename r).unwrap = v.unwrap.rename r := by
  cases v <;> rfl

theorem rename_of_identity? {v : Value} (h : v.identity? = none) : v.rename r = v := by
  cases v <;> simp_all [identity?, rename]

theorem same_rename (u v : Value) : (u.rename r).same (v.rename r) = u.same v := by
  have h (i j : Identity) : (r.identity i == r.identity j) = (i == j) := by
    simp [r.identity_injective.eq_iff]
  cases u <;> cases v <;> simp [rename, same, h]

mutual

@[simp] theorem render_rename : ∀ v : Value, (v.rename r).render = v.render
  | int _ | bool _ | str _ | null | builtin _ | error _ _ => rfl
  | array _ elements => congrArg (fun texts => "[" ++ ", ".intercalate texts ++ "]") (renderAll_rename elements)
  | hash _ pairs => congrArg (fun texts => "\x7b" ++ ", ".intercalate texts ++ "\x7d") (renderPairs_rename pairs)
  | fn _ params body _ => by
    have hnames : (params.map (Ident.relocate r.place)).map (·.name) = params.map (·.name) := List.map_map
    exact congrArg₂ (fun names text => "fn(" ++ ", ".intercalate names ++ ") " ++ text) hnames
      (Block.render_relocate r.place body)
  | ret _ v => v.render_rename

theorem renderAll_rename : ∀ vs : List Value, renderAll (renameAll r vs) = renderAll vs
  | [] => rfl
  | v :: vs => by simp only [renameAll, renderAll, v.render_rename, renderAll_rename vs]

theorem renderPairs_rename : ∀ pairs : List (Key × Value), renderPairs (renamePairs r pairs) = renderPairs pairs
  | [] => rfl
  | (key, v) :: pairs => by
    simp only [renamePairs, renderPairs, v.render_rename, renderPairs_rename pairs]

end

/-! ## Operators -/

theorem applyInt_rename (op : BinaryOp) (a b : Int) : (applyInt op a b).map (rename r) = applyInt op a b := by
  cases op with
  | div =>
    unfold applyInt
    dsimp only
    split <;> rfl
  | _ => rfl

theorem applyUnary_rename (op : UnaryOp) (v : Value) : (v.rename r).applyUnary op = (v.applyUnary op).map (rename r) := by
  cases op <;> cases v <;> rfl

theorem applyBinary_eq (a b : Value) : a.applyBinary .eq b = .ok (.bool (a.same b)) := by
  cases a <;> cases b <;> rfl

theorem applyBinary_notEq (a b : Value) : a.applyBinary .notEq b = .ok (.bool (!a.same b)) := by
  cases a <;> cases b <;> rfl

theorem applyBinary_rename (op : BinaryOp) (a b : Value) :
    (a.rename r).applyBinary op (b.rename r) = (a.applyBinary op b).map (rename r) := by
  cases op with
  | eq => rw [applyBinary_eq, applyBinary_eq, same_rename]; rfl
  | notEq => rw [applyBinary_notEq, applyBinary_notEq, same_rename]; rfl
  | div =>
    by_cases hint : ∃ m n, a = .int m ∧ b = .int n
    · obtain ⟨m, n, rfl, rfl⟩ := hint
      exact (applyInt_rename r .div m n).symm
    · cases a <;> cases b <;> first | rfl | exact absurd ⟨_, _, rfl, rfl⟩ hint
  | _ => cases a <;> cases b <;> rfl

/-- What is missing is null in either case. -/
theorem getD_rename (v? : Option Value) : (v?.map (rename r)).getD .null = (v?.getD .null).rename r := by
  cases v? <;> rfl

theorem elementAt_rename (elements : List Value) (i : Int) :
    elementAt (elements.map (rename r)) i = (elementAt elements i).rename r := by
  cases i with
  | ofNat n =>
    simp only [elementAt, List.getElem?_map]
    exact getD_rename r _
  | negSucc n => rfl

theorem lookupKey_rename (pairs : List (Key × Value)) (index : Value) :
    lookupKey (renamePairs r pairs) (index.rename r) = (lookupKey pairs index).map (rename r) := by
  unfold lookupKey
  rw [key?_rename, type_rename, renamePairs_eq]
  cases index.key? with
  | none => rfl
  | some key =>
    simp only [Dict.lookup_map_snd, getD_rename]
    rfl

theorem applyIndex_rename (a b : Value) :
    (a.rename r).applyIndex (b.rename r) = (a.applyIndex b).map (rename r) := by
  cases a with
  | hash id pairs =>
    have h (pairs : List (Key × Value)) (v : Value) (id : Identity) :
        applyIndex (hash id pairs) v = lookupKey pairs v := by
      cases v <;> rfl
    rw [rename, h, h, lookupKey_rename]
  | array id elements =>
    cases b with
    | int i =>
      show Except.ok (elementAt (renameAll r elements) i) = _
      rw [renameAll_eq, elementAt_rename]
      rfl
    | _ => rfl
  | _ => cases b <;> rfl

/-! ## Values under renamings that agree -/

/-- The renamings take the identity of the value and the scope of a function to the same. -/
def Agree (r r' : Renaming) (v : Value) : Prop :=
  (∀ id, v.identity? = some id → r'.identity id = r.identity id) ∧
    ∀ id params body scope, v = .fn id params body scope → r'.scope scope = r.scope scope

section

variable {r} {r' : Renaming}

mutual

theorem rename_of_agree (hplace : r'.place = r.place) : ∀ v : Value, (∀ u, v.HasPart u → u.Agree r r') →
    v.rename r' = v.rename r
  | int _, _ | bool _, _ | str _, _ | null, _ | builtin _, _ => rfl
  | array id elements, h => by
    rw [rename, rename, (h _ (.self _)).1 id rfl, renameAll_of_agree hplace elements fun v hv u hu => h u (.held hv hu)]
  | hash id pairs, h => by
    rw [rename, rename, (h _ (.self _)).1 id rfl,
      renamePairs_of_agree hplace pairs fun kv hkv u hu => h u (.held (List.mem_map_of_mem hkv) hu)]
  | fn id params body scope, h => by
    rw [rename, rename, (h _ (.self _)).1 id rfl, (h _ (.self _)).2 id params body scope rfl, hplace]
  | ret id v, h => by
    rw [rename, rename, (h _ (.self _)).1 id rfl,
      v.rename_of_agree hplace fun u hu => h u (.held List.mem_cons_self hu)]
  | error id fault, h => by rw [rename, rename, (h _ (.self _)).1 id rfl]

theorem renameAll_of_agree (hplace : r'.place = r.place) : ∀ vs : List Value,
    (∀ v ∈ vs, ∀ u, v.HasPart u → u.Agree r r') → renameAll r' vs = renameAll r vs
  | [], _ => rfl
  | v :: vs, h => by
    rw [renameAll, renameAll, v.rename_of_agree hplace (h v List.mem_cons_self),
      renameAll_of_agree hplace vs fun v hv => h v (List.mem_cons_of_mem _ hv)]

theorem renamePairs_of_agree (hplace : r'.place = r.place) : ∀ pairs : List (Key × Value),
    (∀ kv ∈ pairs, ∀ u, HasPart kv.2 u → u.Agree r r') → renamePairs r' pairs = renamePairs r pairs
  | [], _ => rfl
  | (key, v) :: pairs, h => by
    rw [renamePairs, renamePairs, v.rename_of_agree hplace (h (key, v) List.mem_cons_self),
      renamePairs_of_agree hplace pairs fun kv hkv => h kv (List.mem_cons_of_mem _ hkv)]

end

end

mutual

theorem rename_unmoved : ∀ v : Value, v.rename (.placing id) = v
  | int _ | bool _ | str _ | null | builtin _ | error _ _ => rfl
  | array _ elements => congrArg (array _) (renameAll_unmoved elements)
  | hash _ pairs => congrArg (hash _) (renamePairs_unmoved pairs)
  | fn id params body scope => by
    rw [rename, Renaming.placing, body.relocate_id, Ident.relocate_id, List.map_id]
    rfl
  | ret _ v => congrArg (ret _) v.rename_unmoved

theorem renameAll_unmoved : ∀ vs : List Value, renameAll (.placing id) vs = vs
  | [] => rfl
  | v :: vs => congrArg₂ List.cons v.rename_unmoved (renameAll_unmoved vs)

theorem renamePairs_unmoved : ∀ pairs : List (Key × Value), renamePairs (.placing id) pairs = pairs
  | [] => rfl
  | (key, v) :: pairs => congrArg₂ (fun v rest => (key, v) :: rest) v.rename_unmoved (renamePairs_unmoved pairs)

end

@[simp] theorem rename_placing_id : rename (.placing id) = id := funext rename_unmoved

/-- The identity of the value and the scope of a function are what they were. -/
def Fixed (v : Value) : Prop :=
  (∀ id, v.identity? = some id → r.identity id = id) ∧
    ∀ id params body scope, v = .fn id params body scope → r.scope scope = scope

theorem rename_of_fixed {r : Renaming} (hplace : r.place = id) (v : Value) (h : ∀ u, v.HasPart u → u.Fixed r) :
    v.rename r = v :=
  -- left alone is what is renamed as by the renaming that changes nothing
  (rename_of_agree (r := .placing id) hplace v h).trans v.rename_unmoved

/-- With everything where it is, what is bound stays what it is. -/
theorem map_rename_placing_id (entries : List (String × Value)) :
    (entries.map fun b => (b.1, b.2.rename (.placing id))) = entries := by
  rw [rename_placing_id]
  exact List.map_id _

end Value

/-! ## Events -/

def Event.rename (r : Renaming) : Event → Event
  | enter nd s => enter (nd.relocate r.place) (r.scope s)
  | leave nd s v => leave (nd.relocate r.place) (r.scope s) (v.rename r)
  | bind s name v => bind (r.scope s) name (v.rename r)
  | print line => print line

@[simp] theorem Event.rename_placing_id : Event.rename (.placing id) = id := funext fun e => by
  cases e with
  | enter nd s => exact congrArg (enter · s) nd.relocate_id
  | leave nd s v => exact congrArg₂ (leave · s) nd.relocate_id (congrFun Value.rename_placing_id v)
  | bind s name v => exact congrArg (bind s name) (congrFun Value.rename_placing_id v)
  | print => rfl

theorem Expr.operands_relocate (place : Pos → Pos) (e : Expr) :
    (e.relocate place).operands = e.operands.map (Expr.relocate place) := by
  cases e with
  | cond pos condition consequence alternative => cases alternative <;> rfl
  | _ => simp [Expr.relocate, Expr.operands]

theorem Node.className_relocate (place : Pos → Pos) (nd : Node) : (nd.relocate place).className = nd.className := by
  cases nd with
  | program => rfl
  | block => rfl
  | stmt st =>
    cases st with
    | ret pos value => cases value <;> rfl
    | _ => rfl
  | expr e =>
    cases e with
    | cond pos condition consequence alternative => cases alternative <;> rfl
    | _ => rfl

theorem Event.text_rename (r : Renaming) (debug : Bool) (e : Event) : (e.rename r).text debug = e.text debug := by
  cases e <;> simp [rename, text, Node.className_relocate]

/-! ## Builtin functions -/

/-- What a terminal shows does not depend on numbers and places. -/
theorem Event.texts_rename (r : Renaming) (debug : Bool) (es : List Event) :
    (es.map (rename r)).map (·.text debug) = es.map (·.text debug) := by
  rw [List.map_map]
  exact List.map_congr_left fun e _ => e.text_rename r debug

/-- A value is given, an array made, or a fault raised, and there the renamed value or array, or the same fault. -/
inductive Eval.Renamed (r : Renaming) : Eval Value → Eval Value → Prop
  | pure (v : Value) : Renamed r (pure v) (pure (v.rename r))
  | array (vs : List Value) : Renamed r (Eval.array vs) (Eval.array (vs.map (Value.rename r)))
  | fault (f : Fault) : Renamed r (Eval.fault f) (Eval.fault f)

theorem Eval.renamed_ofExcept (r : Renaming) (x : Except Fault Value) :
    Renamed r (ofExcept x) (ofExcept (x.map (Value.rename r))) := by
  cases x with
  | ok v => exact .pure v
  | error f => exact .fault f

namespace Builtin

open Eval (Renamed)

variable (r : Renaming)

theorem arrayArgument_rename (f : Builtin) (args : List Value) :
    f.arrayArgument (args.map (Value.rename r)) = (f.arrayArgument args).map (List.map (Value.rename r)) := by
  match args with
  | [] => rfl
  | [v] =>
    cases v with
    | array id elements =>
      show Except.ok (Value.renameAll r elements) = _
      rw [Value.renameAll_eq]
      rfl
    | _ => rfl
  | _ :: _ :: args => simp [arrayArgument, Except.map]

theorem renamed_element (v? : Option Value) :
    Renamed r (pure (v?.getD .null)) (pure ((v?.map (Value.rename r)).getD .null)) := by
  rw [Value.getD_rename]
  exact .pure _

/-- What is done with the elements of an array argument is done with the renamed ones. -/
theorem renamed_arrayArgument (f : Builtin) (args : List Value) {use : List Value → Eval Value}
    (h : ∀ elements, Renamed r (use elements) (use (elements.map (Value.rename r)))) :
    Renamed r
      (match f.arrayArgument args with
        | .ok elements => use elements
        | .error fault => Eval.fault fault)
      (match f.arrayArgument (args.map (Value.rename r)) with
        | .ok elements => use elements
        | .error fault => Eval.fault fault) := by
  rw [arrayArgument_rename]
  cases f.arrayArgument args with
  | ok elements => exact h elements
  | error fault => exact .fault fault

theorem renamed_callLen (args : List Value) : Renamed r (callLen args) (callLen (args.map (Value.rename r))) := by
  match args with
  | [] => exact .fault _
  | [v] =>
    cases v with
    | str s => exact .pure (.int s.length)
    | array id elements =>
      show Renamed r (pure (.int elements.length)) (pure (.int (Value.renameAll r elements).length))
      rw [Value.renameAll_eq, List.length_map]
      exact .pure (.int elements.length)
    | _ => exact .fault _
  | v :: u :: args =>
    have h (v u : Value) (args : List Value) :
        callLen (v :: u :: args) = Eval.fault (.arity (v :: u :: args).length 1) := by cases v <;> rfl
    rw [List.map_cons, List.map_cons, h, h]
    simp only [List.length_cons, List.length_map]
    exact .fault _

theorem renamed_callPush (args : List Value) : Renamed r (callPush args) (callPush (args.map (Value.rename r))) := by
  match args with
  | [] => exact .fault _
  | [v] => cases v <;> exact .fault _
  | [v, u] =>
    cases v with
    | array id elements =>
      show Renamed r (Eval.array (elements ++ [u])) (Eval.array (Value.renameAll r elements ++ [u.rename r]))
      rw [Value.renameAll_eq, ← List.map_singleton, ← List.map_append]
      exact .array _
    | _ => exact .fault _
  | v :: u :: t :: args =>
    have h (v u t : Value) (args : List Value) :
        callPush (v :: u :: t :: args) = Eval.fault (.arity (v :: u :: t :: args).length 2) := by cases v <;> rfl
    rw [List.map_cons, List.map_cons, List.map_cons, h, h]
    simp only [List.length_cons, List.length_map]
    exact .fault _

theorem renamed_call {f : Builtin} (hf : f ≠ puts) (args : List Value) :
    Renamed r (f.call args) (f.call (args.map (Value.rename r))) := by
  cases f with
  | puts => exact absurd rfl hf
  | len => exact renamed_callLen r args
  | push => exact renamed_callPush r args
  | first =>
    refine renamed_arrayArgument r _ args fun elements => ?_
    rw [List.head?_map]
    exact renamed_element r _
  | last =>
    refine renamed_arrayArgument r _ args fun elements => ?_
    rw [List.getLast?_map]
    exact renamed_element r _
  | rest =>
    refine renamed_arrayArgument r _ args fun elements => ?_
    cases elements with
    | nil => exact .pure .null
    | cons v tail => exact .array tail

end Builtin

end Monkey
