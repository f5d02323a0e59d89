import Monkey.Proofs.Creation
import Monkey.Proofs.Delegation
import Monkey.Proofs.Delivery
import Monkey.Proofs.Room
import Monkey.Proofs.Trees
/-!
# The recursive map program

A function `map` written in the language: an inner function `iter` calls itself on the rest of an array, with one more
result behind those so far.  Nothing is changed on the way; every call of `iter` has its array and its results in a scope
of its own, and finds `f` and itself around it, in the scope of the call of `map`.  What is shown here is that it calls
`f` once on each element, in order, and gives the results in a new array.

One turn of `iter` is followed from the entry of its body to the next entry (`Turn`), through the one call of `f` that
is made on the way (`Once`); the rest is induction on the array.
-/
namespace Monkey

namespace Mapping

open Eval

/-- The definition of `map`. -/
def source : String :=
  "let map = fn(arr, f) \x7b\n" ++
  "  let iter = fn(arr, acc) \x7b\n" ++
  "    if (len(arr) == 0) \x7b acc \x7d else \x7b iter(rest(arr), push(acc, f(first(arr)))) \x7d\n" ++
  "  \x7d;\n" ++
  "  iter(arr, [])\n" ++
  "\x7d;"

/-! ## Its parts -/

/-- The call of a name. -/
def callOf (name : String) (start paren : Pos) (args : List Expr) : Expr := .call paren (.ident ⟨start, name⟩) args

/-- The call of a function on `arr`. -/
def ofArr (name : String) (start paren arg : Pos) : Expr := callOf name start paren [.ident ⟨arg, "arr"⟩]

def condition : Expr := .binary ⟨3, 18⟩ .eq (ofArr "len" ⟨3, 9⟩ ⟨3, 12⟩ ⟨3, 13⟩) (.int ⟨3, 21⟩ "0" 0)

def consequence : Block := .mk ⟨3, 24⟩ [.expr ⟨.ident, "acc", ⟨3, 26⟩⟩ (.ident ⟨⟨3, 26⟩, "acc"⟩)]

def calling : Expr := callOf "f" ⟨3, 65⟩ ⟨3, 66⟩ [ofArr "first" ⟨3, 67⟩ ⟨3, 72⟩ ⟨3, 73⟩]

def pushing : Expr := callOf "push" ⟨3, 55⟩ ⟨3, 59⟩ [.ident ⟨⟨3, 60⟩, "acc"⟩, calling]

def recurring : Expr := callOf "iter" ⟨3, 39⟩ ⟨3, 43⟩ [ofArr "rest" ⟨3, 44⟩ ⟨3, 48⟩ ⟨3, 49⟩, pushing]

def alternative : Block := .mk ⟨3, 37⟩ [.expr ⟨.ident, "iter", ⟨3, 39⟩⟩ recurring]

def choice : Expr := .cond ⟨3, 5⟩ condition consequence (some alternative)

def iterParams : List Ident := [⟨⟨2, 17⟩, "arr"⟩, ⟨⟨2, 22⟩, "acc"⟩]

def iterBody : Block := .mk ⟨2, 27⟩ [.expr ⟨.ifWord, "if", ⟨3, 5⟩⟩ choice]

def starting : Expr := callOf "iter" ⟨5, 3⟩ ⟨5, 7⟩ [.ident ⟨⟨5, 8⟩, "arr"⟩, .array ⟨5, 13⟩ []]

def mapParams : List Ident := [⟨⟨1, 14⟩, "arr"⟩, ⟨⟨1, 19⟩, "f"⟩]

def iterLiteral : Expr := .fn ⟨2, 14⟩ iterParams iterBody

def binding : Stmt := .bind ⟨2, 3⟩ ⟨⟨2, 7⟩, "iter"⟩ iterLiteral

def ending : Stmt := .expr ⟨.ident, "iter", ⟨5, 3⟩⟩ starting

def mapBody : Block := .mk ⟨1, 22⟩ [binding, ending]

def program : Program :=
  ⟨⟨.letWord, "let", ⟨1, 1⟩⟩, [.bind ⟨1, 1⟩ ⟨⟨1, 5⟩, "map"⟩ (.fn ⟨1, 11⟩ mapParams mapBody)]⟩

theorem parse_source : (parse source).diagnostics = [] ∧ (parse source).program = program := by decide +kernel

/-! ## Entering and leaving a node -/

section

variable {m s : ScopeId} {answers : List Value} {w w' : World} {nd : Node}

theorem works_entered (hs : w.Own m s) (nd : Node) : World.Works "f" m [] w (entered nd s w) :=
  (World.Works.refl "f" m w).emit (e := .enter nd s) rfl hs

/-- A node is left that is no call of `f`. -/
theorem works_left (hs : w.Own m s) {v : Value} (hnode : (Event.leave nd s v).answer? "f" = none) :
    World.Works "f" m [] w (left nd s v w) := by
  have hleft := (World.Works.refl "f" m w).emit (e := .leave nd s v) rfl hs
  rwa [hnode] at hleft

/-- What a node does, and that it is entered and left. -/
theorem works_node (hs : w.Own m s) (h : World.Works "f" m answers (entered nd s w) w') {v : Value}
    (hnode : (Event.leave nd s v).answer? "f" = none) : World.Works "f" m answers w (left nd s v w') :=
  have hentered := (works_entered hs nd).andThen h
  hentered.trans (works_left (hs.mono hentered.toGrows) hnode)

end

/-! ## Where it runs -/

/-- A call of `map` has the scope `m`, where it finds the function `f`, and no other meaning for the builtin functions
that it uses. -/
structure Ground (w : World) (m : ScopeId) (f : Value) : Prop where
  there : ∀ t ∈ w.store.chain m, (t : Nat) < w.store.size
  callee : w.store.get? m "f" = some f
  builtin : ∀ b ∈ [Builtin.len, .first, .rest, .push], w.store.get? m b.name = none

/-- The inner function `iter` is bound there. -/
structure Around (w : World) (m : ScopeId) (f : Value) (i : Identity) : Prop extends Ground w m f where
  iter : w.store.get? m "iter" = some (.fn i iterParams iterBody m)

/-- A call of `iter` in that call has the scope `s`, with its array and the results so far. -/
structure Turn (w : World) (m : ScopeId) (f : Value) (i : Identity) (s : Nat) (arr acc : Value) : Prop
    extends Around w m f i where
  lt : s < w.store.size
  enclosing : w.store.enclosing s = w.store.chain m
  arr : w.store.get? s "arr" = some arr
  acc : w.store.get? s "acc" = some acc
  outer : ∀ name, name ≠ "arr" → name ≠ "acc" → w.store.get? s name = w.store.get? m name

variable {w w' : World} {m : ScopeId} {f : Value} {i : Identity} {s : Nat} {arr acc : Value}

theorem Ground.own {m : Nat} (h : Ground w m f) : w.Own m m := ⟨h.there m List.mem_cons_self, List.mem_cons_self⟩

theorem Ground.mono {m : Nat} (h : Ground w m f) (hw : w.Grows w') : Ground w' m f := by
  refine ⟨?_, ?_, fun b hb => ?_⟩
  · rw [hw.chain h.own.lt]
    exact fun t ht => Nat.lt_of_lt_of_le (h.there t ht) hw.size
  · rw [hw.get? h.there]
    exact h.callee
  · rw [hw.get? h.there]
    exact h.builtin b hb

theorem Around.mono (h : Around w m f i) (hw : w.Grows w') : Around w' m f i :=
  ⟨h.toGround.mono hw, (hw.get? h.there "iter").trans h.iter⟩

theorem Turn.chain (h : Turn w m f i s arr acc) : w.store.chain s = s :: w.store.chain m :=
  congrArg (s :: ·) h.enclosing

theorem Turn.own (h : Turn w m f i s arr acc) : w.Own m s := ⟨h.lt, by
  rw [h.chain]
  exact List.mem_cons_of_mem _ List.mem_cons_self⟩

theorem Turn.mono (h : Turn w m f i s arr acc) (hw : w.Grows w') : Turn w' m f i s arr acc := by
  have hm : ∀ t ∈ w.store.chain m, (t : Nat) < w.store.size := h.there
  have hs : ∀ t ∈ w.store.chain s, (t : Nat) < w.store.size := by
    rw [h.chain]
    exact List.forall_mem_cons.2 ⟨h.lt, hm⟩
  refine ⟨h.toAround.mono hw, Nat.lt_of_lt_of_le h.lt hw.size, ?_, ?_, ?_, fun name harr hacc => ?_⟩
  · rw [hw.enclosing h.lt, hw.chain (hm m List.mem_cons_self), h.enclosing]
  · rw [hw.get? hs]
    exact h.arr
  · rw [hw.get? hs]
    exact h.acc
  · rw [hw.get? hs, hw.get? hm]
    exact h.outer name harr hacc

/-! ## The parts without a call of `f` -/

/-- The evaluation only works, and a property holds of its result. -/
def Idle {α : Type} (m : ScopeId) (x : Nat → Eval α) (w : World) (P : α → Prop) : Prop :=
  ∃ a w', P a ∧ Settles x w a w' ∧ World.Works "f" m [] w w'

theorem idle_name (hs : w.Own m s) {name : String} {v : Value} (h : w.store.get? s name = some v) (pos : Pos) :
    Idle m (fun n => evaluate n (.expr (.ident ⟨pos, name⟩)) s) w (v = ·) :=
  ⟨v, _, rfl, .ident h, works_node hs (.refl _ _ _) rfl⟩

/-- An empty array is made. -/
theorem idle_empty (hs : w.Own m s) (pos : Pos) :
    Idle m (fun n => evaluate n (.expr (.array pos [])) s) w fun a => ∃ k, w.fresh ≤ k ∧ a = .array k [] := by
  have hnone := Settles.array (settles_expressions_nil s (entered (.expr (.array pos [])) s w))
  exact ⟨_, _, ⟨w.fresh, Nat.le_refl _, rfl⟩, hnone, works_node hs (World.Works.refl _ _ _).made rfl⟩

theorem idle_iterLiteral (hs : w.Own m s) :
    Idle m (fun n => evaluate n (.expr iterLiteral) s) w fun v => ∃ i, v = .fn i iterParams iterBody s :=
  have hnode : (Event.leave (.expr iterLiteral) s (.fn w.fresh iterParams iterBody s)).answer? "f" = none := rfl
  ⟨_, _, ⟨w.fresh, rfl⟩, settles_function ⟨2, 14⟩ iterParams iterBody s w,
    works_node hs (World.Works.refl _ _ _).made hnode⟩

theorem Turn.idle_builtin (h : Turn w m f i s arr acc) {b : Builtin} (hb : b ∈ [Builtin.len, .first, .rest, .push])
    (pos : Pos) : Idle m (fun n => evaluate n (.expr (.ident ⟨pos, b.name⟩)) s) w (.builtin b = ·) := by
  have hnone : w.store.get? s b.name = none := by
    have hnames : ∀ b ∈ [Builtin.len, .first, .rest, .push], b.name ≠ "arr" ∧ b.name ≠ "acc" := by decide
    rw [h.outer b.name (hnames b hb).1 (hnames b hb).2]
    exact h.builtin b hb
  have hname : Builtin.ofName? b.name = some b := by cases b <;> rfl
  exact ⟨_, _, rfl, .builtin hnone hname, works_node h.own (.refl _ _ _) rfl⟩

/-- A builtin function called on `arr`. -/
theorem Turn.idle_ofArr (h : Turn w m f i s arr acc) (harr : arr.isError = false) {b : Builtin}
    (hb : b ∈ [Builtin.len, .first, .rest, .push]) {P : Value → Prop}
    (hcall : ∀ w₀ : World, ∃ v w', P v ∧ b.call [arr] w₀ = .value v w' ∧ World.Works "f" m [] w₀ w')
    (start paren arg : Pos) : Idle m (fun n => evaluate n (.expr (ofArr b.name start paren arg)) s) w P := by
  have hentered := works_entered h.own (.expr (ofArr b.name start paren arg))
  obtain ⟨_, w₁, rfl, hcallee, hw₁⟩ := (h.mono hentered.toGrows).idle_builtin hb start
  have h₁ := h.mono (hentered.toGrows.trans hw₁.toGrows)
  obtain ⟨_, w₂, rfl, harg, hw₂⟩ := idle_name h₁.own h₁.arr arg
  obtain ⟨v, w₃, hv, hresult, hw₃⟩ := hcall w₂
  refine ⟨v, _, hv, .call hcallee rfl (.expressions_cons harg harr (settles_expressions_nil s w₂)) (.of_eq hresult), ?_⟩
  have hname : ∀ b ∈ [Builtin.len, .first, .rest, .push], b.name ≠ "f" := by decide
  exact works_node h.own ((hw₁.andThen hw₂).andThen hw₃) (if_neg (hname b hb))

/-- The condition asks whether the array is empty. -/
theorem Turn.idle_condition {j : Identity} {xs : List Value} (h : Turn w m f i s (.array j xs) acc) :
    Idle m (fun n => evaluate n (.expr condition) s) w (.bool xs.isEmpty = ·) := by
  have hentered := works_entered h.own (.expr condition)
  obtain ⟨_, w₁, rfl, hlen, hw₁⟩ := (h.mono hentered.toGrows).idle_ofArr rfl (b := .len) (by simp)
    (fun w₀ => ⟨_, w₀, rfl, rfl, .refl _ _ _⟩) ⟨3, 9⟩ ⟨3, 12⟩ ⟨3, 13⟩
  have h₁ := h.mono (hentered.toGrows.trans hw₁.toGrows)
  have hop : (Value.int (xs.length : Int)).applyBinary .eq (.int (0 : Nat)) = .ok (.bool xs.isEmpty) := by
    cases xs with
    | nil => rfl
    | cons x xs =>
      have hlength : ((xs.length : Int) + 1 == 0) = false := beq_eq_false_iff_ne.2 (by omega)
      simp [Value.applyBinary, Value.applyInt, hlength]
  refine ⟨_, _, rfl, .binary hlen rfl (settles_int _ "0" 0 s w₁) rfl hop, works_node h.own (hw₁.andThen ?_) rfl⟩
  exact works_node h₁.own (.refl _ _ _) rfl

/-! ## The call of `f` -/

/-- The evaluation works, calls `f` on `x` once, and works on with an ordinary answer `z`, to a result of which `P z`
holds. -/
def Once {α : Type} (m : ScopeId) (f x : Value) (e : Nat → Eval α) (w : World) (P : Value → α → Prop) : Prop :=
  ∃ w₁, World.Works "f" m [] w w₁ ∧ ∀ z w₂, z.isSignal = false → w₁.Grows w₂ →
    Settles (fun n => apply (evaluate n) f [x]) w₁ z w₂ → ∃ a w₃, P z a ∧ Settles e w a w₃ ∧ World.Works "f" m [z] w₂ w₃

theorem Turn.once_calling {j : Identity} {x : Value} {xs : List Value} (h : Turn w m f i s (.array j (x :: xs)) acc)
    (hf : f.isError = false) (hx : x.isError = false) :
    Once m f x (fun n => evaluate n (.expr calling) s) w fun z a => a = z := by
  have hentered := works_entered h.own (.expr calling)
  have hcallee : (entered (.expr calling) s w).store.get? s "f" = some f :=
    (h.outer "f" (by decide) (by decide)).trans h.callee
  obtain ⟨_, w₁, rfl, hcallee, hw₁⟩ := idle_name (h.mono hentered.toGrows).own hcallee ⟨3, 65⟩
  have h₁ := h.mono (hentered.toGrows.trans hw₁.toGrows)
  obtain ⟨_, w₂, rfl, harg, hw₂⟩ := h₁.idle_ofArr rfl (b := .first) (by simp)
    (fun w₀ => ⟨_, w₀, rfl, rfl, .refl _ _ _⟩) ⟨3, 67⟩ ⟨3, 72⟩ ⟨3, 73⟩
  refine ⟨w₂, (hentered.andThen hw₁).andThen hw₂, fun z w₃ _ hgrows hcall =>
    ⟨z, left (.expr calling) s z w₃, rfl, ?_, ?_⟩⟩
  · exact .call hcallee hf (.expressions_cons harg hx (settles_expressions_nil s w₂)) hcall
  · have h₃ := (h₁.mono hw₂.toGrows).mono hgrows
    exact (World.Works.refl "f" m w₃).emit (e := .leave (.expr calling) s z) rfl h₃.own

/-- The answer is put behind the results so far, in a new array. -/
theorem Turn.once_pushing {j k : Identity} {x : Value} {xs zs : List Value}
    (h : Turn w m f i s (.array j (x :: xs)) (.array k zs)) (hf : f.isError = false) (hx : x.isError = false) :
    Once m f x (fun n => evaluate n (.expr pushing) s) w
      fun z a => ∃ k', w.fresh ≤ k' ∧ a = .array k' (zs ++ [z]) := by
  have hentered := works_entered h.own (.expr pushing)
  obtain ⟨_, w₁, rfl, hcallee, hw₁⟩ := (h.mono hentered.toGrows).idle_builtin (b := .push) (by simp) ⟨3, 55⟩
  have h₁ := h.mono (hentered.toGrows.trans hw₁.toGrows)
  obtain ⟨_, w₂, rfl, hacc, hw₂⟩ := idle_name h₁.own h₁.acc ⟨3, 60⟩
  have hwork := (hentered.andThen hw₁).andThen hw₂
  obtain ⟨w₃, hw₃, honce⟩ := (h₁.mono hw₂.toGrows).once_calling hf hx
  refine ⟨w₃, hwork.andThen hw₃, fun z w₄ hz hgrows hcall => ?_⟩
  obtain ⟨_, w₅, rfl, hcalling, hw₅⟩ := honce z w₄ hz hgrows hcall
  have hall := (hwork.toGrows.trans hw₃.toGrows).trans (hgrows.trans hw₅.toGrows)
  refine ⟨_, _, ⟨w₅.fresh, hall.fresh, rfl⟩, .call hcallee rfl (.expressions_cons hacc rfl (.expressions_cons hcalling
    (Value.isError_of_not_isSignal hz) (settles_expressions_nil s w₅))) (.of_eq rfl), ?_⟩
  exact hw₅.made.trans (works_left (h.mono (hall.trans (World.Works.refl "f" m w₅).made.toGrows)).own rfl)

/-! ## Calls of functions with two parameters -/

/-- The world in which the body of a function with two parameters is entered. -/
def opened (scope : ScopeId) (p q : String) (a b : Value) (w : World) : World where
  store := ((w.store.push (some scope)).set w.store.next p a).set w.store.next q b
  fresh := w.fresh
  log := .bind w.store.next q b :: .bind w.store.next p a :: w.log

section

variable {scope : ScopeId} {p q : String} {a b : Value}

theorem size_opened : (opened scope p q a b w).store.size = w.store.size + 1 := by simp [opened]

theorem enclosing_opened (t : ScopeId) :
    (opened scope p q a b w).store.enclosing t = (w.store.push (some scope)).enclosing t := by
  simp only [opened, Store.enclosing_set]

theorem enclosing_opened_next : (opened scope p q a b w).store.enclosing w.store.next = w.store.chain scope :=
  (enclosing_opened _).trans (Store.enclosing_push_next w.store (some scope))

theorem chain_opened {t : Nat} (ht : t < w.store.size) : (opened scope p q a b w).store.chain t = w.store.chain t :=
  congrArg (t :: ·) ((enclosing_opened t).trans (Store.enclosing_push _ ht _))

theorem bindings_opened (t : ScopeId) : (opened scope p q a b w).store.bindings t =
    if w.store.next = t then Dict.insert q b (Dict.insert p a (w.store.bindings t)) else w.store.bindings t := by
  have hlt : w.store.next < (w.store.push (some scope)).size := by
    rw [Store.size_push]
    exact Nat.lt_succ_self _
  simp only [opened]
  rw [Store.bindings_set _ (by simpa using hlt), Store.bindings_set _ hlt, Store.bindings_push]
  split <;> rfl

theorem works_opened {answers : List Value} (h : World.Works "f" m answers w' w)
    (hm : m ∈ w.store.next :: w.store.chain scope) : World.Works "f" m answers w' (opened scope p q a b w) := by
  have hlt : w.store.next < (w.store.push (some scope)).size := by
    rw [Store.size_push]
    exact Nat.lt_succ_self _
  have hchain : m ∈ (w.store.push (some scope)).chain w.store.next := by
    rw [Store.chain, Store.enclosing_push_next]
    exact hm
  have hfirst := (h.push (some scope)).bind (s := w.store.next) ⟨hlt, hchain⟩ h.size p a
  refine hfirst.bind (s := w.store.next) ⟨by simpa using hlt, ?_⟩ h.size q b
  rw [Store.chain, Store.enclosing_set]
  exact hchain

/-- In the new scope the parameters mean the arguments, and every other name what it means outside. -/
theorem get?_opened (hscope : ∀ t ∈ w.store.chain scope, (t : Nat) < w.store.size) (name : String) :
    (opened scope p q a b w).store.get? w.store.next name =
      if name == q then some b else if name == p then some a else w.store.get? scope name := by
  have hchain : (opened scope p q a b w).store.chain scope = w.store.chain scope :=
    chain_opened (hscope scope List.mem_cons_self)
  have houter : (opened scope p q a b w).store.get? scope name = w.store.get? scope name := by
    refine Store.get?_congr hchain fun t ht => ?_
    have hne : w.store.next ≠ t := Nat.ne_of_gt (hscope t ht)
    rw [bindings_opened, if_neg hne]
  have hnew : w.store.bindings w.store.next = [] := Store.bindings_of_size_le _ (Nat.le_refl _)
  rw [Store.get?_inside (enclosing_opened_next.trans hchain.symm), bindings_opened, if_pos rfl, hnew, Dict.lookup_insert,
    Dict.lookup_insert, houter]
  split
  · rfl
  · split <;> rfl

end

/-- The next turn: `iter` is called on another array and other results. -/
theorem Around.turn (h : Around w m f i) (arr acc : Value) :
    World.Works "f" m [] w (opened m "arr" "acc" arr acc w) ∧
      Turn (opened m "arr" "acc" arr acc w) m f i w.store.next arr acc := by
  have hm : m ∈ w.store.chain m := List.mem_cons_self
  have hwork : World.Works "f" m [] w (opened m "arr" "acc" arr acc w) :=
    works_opened (.refl _ _ _) (List.mem_cons_of_mem _ hm)
  have hchain : (opened m "arr" "acc" arr acc w).store.chain m = w.store.chain m := chain_opened (h.there m hm)
  refine ⟨hwork, h.mono hwork.toGrows, ?_, ?_, ?_, ?_, fun name harr hacc => ?_⟩
  · rw [size_opened]
    exact Nat.lt_succ_self _
  · rw [enclosing_opened_next, hchain]
  · rw [get?_opened h.there]
    rfl
  · rw [get?_opened h.there]
    rfl
  · have hsame := hwork.toGrows.get? h.there name
    rw [get?_opened h.there, hsame]
    simp [harr, hacc]

/-- `iter` is entered in a new turn, and gives what its body gives. -/
theorem settles_iter {arr acc v : Value} {w'' : World} (hv : v.isSignal = false)
    (hbody : Settles (fun n => evaluate n (.block iterBody) w.store.next) (opened m "arr" "acc" arr acc w) v w'') :
    Settles (fun n => apply (evaluate n) (.fn i iterParams iterBody m) [arr, acc]) w v w'' := by
  have hopen : openCall iterParams m [arr, acc] w = .value w.store.next (opened m "arr" "acc" arr acc w) := rfl
  have happly : Settles (fun n => apply (evaluate n) (.fn i iterParams iterBody m) [arr, acc]) w v.unwrap w'' :=
    .apply hopen hbody
  rwa [Value.unwrap_of_not_isSignal hv] at happly

/-! ## What comes last -/

/-- What the evaluation `e` gives when it starts in `w'`, the evaluation `e'` gives when it starts in `w`, with nothing but
work behind it. -/
def Last (m : ScopeId) (e' : Nat → Eval Value) (w : World) (e : Nat → Eval Value) (w' : World) : Prop :=
  ∀ v w₁, v.isSignal = false → w'.Grows w₁ → Settles e w' v w₁ →
    ∃ w₂, Settles e' w v w₂ ∧ World.Works "f" m [] w₁ w₂

theorem Last.trans {e e' e'' : Nat → Eval Value} {w'' : World} (h : Last m e w e' w') (hgrows : w'.Grows w'')
    (h' : Last m e' w' e'' w'') : Last m e w e'' w'' := fun v w₁ hv hw₁ hsettles => by
  obtain ⟨w₂, hsettles', hwork⟩ := h' v w₁ hv hw₁ hsettles
  obtain ⟨w₃, hsettles'', hwork'⟩ := h v w₂ hv (hgrows.trans (hw₁.trans hwork.toGrows)) hsettles'
  exact ⟨w₃, hsettles'', hwork.andThen hwork'⟩

/-- The only expression of a block comes last in it. -/
theorem last_only (hs : w.Own m s) (pos : Pos) (token : Token) (e : Expr) : ∃ w', World.Works "f" m [] w w' ∧
    Last m (fun n => evaluate n (.block (.mk pos [.expr token e])) s) w (fun n => evaluate n (.expr e) s) w' := by
  have hblock := works_entered hs (.block (.mk pos [.expr token e]))
  have hstatement := hblock.andThen (works_entered (hs.mono hblock.toGrows) (.stmt (.expr token e)))
  refine ⟨_, hstatement, fun v w₁ _ hw₁ hsettles => ⟨_, .block (.statements_last (.statement hsettles)), ?_⟩⟩
  have hs₁ := hs.mono (hstatement.toGrows.trans hw₁)
  have hleft : World.Works "f" m [] w₁ (left (.stmt (.expr token e)) s v w₁) := works_left hs₁ rfl
  exact hleft.andThen (works_left (hs₁.mono hleft.toGrows) rfl)

/-- In the choice, a branch comes last: with nothing left, the results so far. -/
theorem Turn.last_consequence {j : Identity} (h : Turn w m f i s (.array j []) acc) : ∃ w', World.Works "f" m [] w w' ∧
    Last m (fun n => evaluate n (.expr choice) s) w (fun n => evaluate n (.block consequence) s) w' := by
  have hentered := works_entered h.own (.expr choice)
  obtain ⟨_, w₁, rfl, hcondition, hw₁⟩ := (h.mono hentered.toGrows).idle_condition
  have htest := hentered.andThen hw₁
  refine ⟨w₁, htest, fun v w₂ _ hw₂ hsettles => ⟨_, .consequence hcondition rfl rfl hsettles, ?_⟩⟩
  exact works_left (h.own.mono (htest.toGrows.trans hw₂)) rfl

theorem Turn.last_alternative {j : Identity} {x : Value} {xs : List Value}
    (h : Turn w m f i s (.array j (x :: xs)) acc) : ∃ w', World.Works "f" m [] w w' ∧
    Last m (fun n => evaluate n (.expr choice) s) w (fun n => evaluate n (.block alternative) s) w' := by
  have hentered := works_entered h.own (.expr choice)
  obtain ⟨_, w₁, rfl, hcondition, hw₁⟩ := (h.mono hentered.toGrows).idle_condition
  have htest := hentered.andThen hw₁
  refine ⟨w₁, htest, fun v w₂ _ hw₂ hsettles => ⟨_, .alternative hcondition rfl rfl hsettles, ?_⟩⟩
  exact works_left (h.own.mono (htest.toGrows.trans hw₂)) rfl

/-! ## One turn -/

/-- With nothing left, the results so far are the result. -/
theorem Turn.idle_nil {j : Identity} (h : Turn w m f i s (.array j []) acc) (hacc : acc.isSignal = false) :
    Idle m (fun n => evaluate n (.block iterBody) s) w (acc = ·) := by
  obtain ⟨w₁, hw₁, hlast₁⟩ := last_only h.own ⟨2, 27⟩ ⟨.ifWord, "if", ⟨3, 5⟩⟩ choice
  have h₁ := h.mono hw₁.toGrows
  obtain ⟨w₂, hw₂, hlast₂⟩ := h₁.last_consequence
  have h₂ := h₁.mono hw₂.toGrows
  obtain ⟨w₃, hw₃, hlast₃⟩ := last_only h₂.own ⟨3, 24⟩ ⟨.ident, "acc", ⟨3, 26⟩⟩ (.ident ⟨⟨3, 26⟩, "acc"⟩)
  have h₃ := h₂.mono hw₃.toGrows
  obtain ⟨_, w₄, rfl, hname, hw₄⟩ := idle_name h₃.own h₃.acc ⟨3, 26⟩
  have hlast := hlast₁.trans (hw₂.andThen hw₃).toGrows (hlast₂.trans hw₃.toGrows hlast₃)
  obtain ⟨w₅, hsettles, hw₅⟩ := hlast acc w₄ hacc hw₄.toGrows hname
  exact ⟨acc, w₅, rfl, hsettles, (((hw₁.andThen hw₂).andThen hw₃).andThen hw₄).andThen hw₅⟩

/-- One turn of an evaluation: it works, calls `f` on `x`, and works on to the next turn, with the other elements and one
more result; the next turn comes last. -/
def Turns (m : ScopeId) (f : Value) (i : Identity) (x : Value) (xs zs : List Value) (e : Nat → Eval Value)
    (w : World) : Prop :=
  ∃ w₁, World.Works "f" m [] w w₁ ∧ ∀ z w₂, z.isSignal = false → w₁.Grows w₂ →
    Settles (fun n => apply (evaluate n) f [x]) w₁ z w₂ → ∃ (w₃ : World) (s : Nat) (j k : Identity),
      World.Works "f" m [z] w₂ w₃ ∧ Turn w₃ m f i s (.array j xs) (.array k (zs ++ [z])) ∧ w.fresh ≤ k ∧
        Last m e w (fun n => evaluate n (.block iterBody) s) w₃

theorem Turns.of_last {x : Value} {xs zs : List Value} {e e' : Nat → Eval Value} (h : Turns m f i x xs zs e' w')
    (hw : World.Works "f" m [] w w') (hlast : Last m e w e' w') : Turns m f i x xs zs e w := by
  obtain ⟨w₁, hw₁, hturn⟩ := h
  refine ⟨w₁, hw.andThen hw₁, fun z w₂ hz hgrows hcall => ?_⟩
  obtain ⟨w₃, s, j, k, hw₃, hnext, hk, hlast'⟩ := hturn z w₂ hz hgrows hcall
  have hall := hw₁.toGrows.trans (hgrows.trans hw₃.toGrows)
  exact ⟨w₃, s, j, k, hw₃, hnext, Nat.le_trans hw.fresh hk, hlast.trans hall hlast'⟩

theorem Turn.turns_recurring {j k : Identity} {x : Value} {xs zs : List Value}
    (h : Turn w m f i s (.array j (x :: xs)) (.array k zs)) (hf : f.isError = false) (hx : x.isError = false) :
    Turns m f i x xs zs (fun n => evaluate n (.expr recurring) s) w := by
  have hentered := works_entered h.own (.expr recurring)
  have hiter : (entered (.expr recurring) s w).store.get? s "iter" = some (.fn i iterParams iterBody m) :=
    (h.outer "iter" (by decide) (by decide)).trans h.iter
  obtain ⟨_, w₁, rfl, hcallee, hw₁⟩ := idle_name (h.mono hentered.toGrows).own hiter ⟨3, 39⟩
  have hwork := hentered.andThen hw₁
  -- the rest of the array is a new array
  obtain ⟨_, w₂, ⟨j', rfl⟩, hrest, hw₂⟩ := (h.mono hwork.toGrows).idle_ofArr rfl (b := .rest) (by simp)
    (P := fun v => ∃ j', v = .array j' xs) (fun w₀ => ⟨_, _, ⟨w₀.fresh, rfl⟩, rfl, (World.Works.refl "f" m w₀).made⟩)
    ⟨3, 44⟩ ⟨3, 48⟩ ⟨3, 49⟩
  have hwork' := hwork.andThen hw₂
  obtain ⟨w₃, hw₃, honce⟩ := (h.mono hwork'.toGrows).once_pushing hf hx
  refine ⟨w₃, hwork'.andThen hw₃, fun z w₄ hz hgrows hcall => ?_⟩
  obtain ⟨_, w₅, ⟨k', hk', rfl⟩, hpushing, hw₅⟩ := honce z w₄ hz hgrows hcall
  have hall := (hwork'.toGrows.trans hw₃.toGrows).trans (hgrows.trans hw₅.toGrows)
  obtain ⟨hw₆, hnext⟩ := (h.toAround.mono hall).turn (.array j' xs) (.array k' (zs ++ [z]))
  refine ⟨_, _, j', k', hw₅.trans hw₆, hnext, Nat.le_trans hwork'.fresh hk', fun v w₇ hv hw₇ hsettles => ?_⟩
  have hargs := Settles.expressions_cons hrest rfl (.expressions_cons hpushing rfl (settles_expressions_nil s w₅))
  exact ⟨_, .call hcallee rfl hargs (settles_iter hv hsettles),
    works_left (h.own.mono (hall.trans (hw₆.toGrows.trans hw₇))) rfl⟩

/-- With elements left, the body of `iter` takes a turn. -/
theorem Turn.turns {j k : Identity} {x : Value} {xs zs : List Value}
    (h : Turn w m f i s (.array j (x :: xs)) (.array k zs)) (hf : f.isError = false) (hx : x.isError = false) :
    Turns m f i x xs zs (fun n => evaluate n (.block iterBody) s) w := by
  obtain ⟨w₁, hw₁, hlast₁⟩ := last_only h.own ⟨2, 27⟩ ⟨.ifWord, "if", ⟨3, 5⟩⟩ choice
  have h₁ := h.mono hw₁.toGrows
  obtain ⟨w₂, hw₂, hlast₂⟩ := h₁.last_alternative
  have h₂ := h₁.mono hw₂.toGrows
  obtain ⟨w₃, hw₃, hlast₃⟩ := last_only h₂.own ⟨3, 37⟩ ⟨.ident, "iter", ⟨3, 39⟩⟩ recurring
  have hrecurring := (h₂.mono hw₃.toGrows).turns_recurring hf hx
  exact ((hrecurring.of_last hw₃ hlast₃).of_last hw₂ hlast₂).of_last hw₁ hlast₁

/-! ## All turns -/

/-- A function called on each value, one call directly after the other. -/
def callEach (ev : Below) (f : Value) : List Value → Eval (List Value)
  | [] => pure []
  | x :: xs => do
    let y ← apply ev f [x]
    let ys ← callEach ev f xs
    pure (y :: ys)

/-- What gives an ordinary value when it is called is not an error. -/
theorem isError_of_apply {ev : Below} {args : List Value} {y : Value} (h : apply ev f args w = .value y w')
    (hy : y.isSignal = false) : f.isError = false := by
  cases f with
  | error id fault =>
    cases h
    cases hy
  | _ => rfl

/-- From turn to turn, the evaluation of `iter` follows the calls. -/
theorem Turn.follows {base : World} {n : Nat} (hf : Regime.standing.Good base f) : ∀ {xs ys ys' zs : List Value}
    {u u' v : World} {s : Nat} {j k : Identity}, base.Follows "f" m u ys v zs →
    Turn v m f i s (.array j xs) (.array k zs) → base.fresh ≤ k →
    (∀ x ∈ xs, x.isSignal = false ∧ Regime.standing.Good base x) → callEach (evaluate n) f xs u = .value ys' u' →
    (∀ y ∈ ys', y.isSignal = false) → ∃ (k' : Identity) (zs' : List Value) (v' : World),
      Settles (fun n => evaluate n (.block iterBody) s) v (.array k' zs') v' ∧ base.fresh ≤ k' ∧ v.Grows v' ∧
        base.Follows "f" m u' (ys ++ ys') v' zs' := by
  intro xs
  induction xs with
  | nil =>
    intro ys ys' zs u u' v s j k hfollows hturn hk _ hcalls _
    cases hcalls
    obtain ⟨_, v', rfl, hsettles, hwork⟩ := hturn.idle_nil rfl
    exact ⟨k, zs, v', hsettles, hk, hwork.toGrows, by simpa using hfollows.works hwork⟩
  | cons x xs ih =>
    intro ys ys' zs u u' v s j k hfollows hturn hk hxs hcalls hys'
    obtain ⟨y, u₁, hcall, hrest⟩ := exists_of_bind hcalls
    obtain ⟨ys'', u₂, hrest, heq⟩ := exists_of_bind hrest
    cases heq
    obtain ⟨hx, hxs⟩ := List.forall_mem_cons.1 hxs
    obtain ⟨hy, hys''⟩ := List.forall_mem_cons.1 hys'
    obtain ⟨v₁, hwork, hnext⟩ := hturn.turns (isError_of_apply hcall hy) (Value.isError_of_not_isSignal hx.1)
    -- the call of `f` in this turn, beside the one that the calls begin with
    obtain ⟨z, v₂, hcall', hgrows, hz, hfollows'⟩ :=
      (hfollows.works hwork).call hf (List.forall_mem_singleton.2 hx.2) hcall
    obtain ⟨v₃, t, j', k', hwork', hturn', hk', hlast⟩ := hnext z v₂ (hz.trans hy) hgrows (.of_apply hcall')
    obtain ⟨k'', zs', v₄, hsettles, hk'', hgrows', hfollows''⟩ := ih (hfollows' v₃ hwork') hturn'
      (Nat.le_trans hfollows.grows.fresh hk') hxs hrest hys''
    obtain ⟨v₅, hsettles', hwork''⟩ := hlast (.array k'' zs') v₄ rfl hgrows' hsettles
    refine ⟨k'', zs', v₅, hsettles', hk'', ?_, by simpa using hfollows''.works hwork''⟩
    exact hwork.toGrows.trans (hgrows.trans (hwork'.toGrows.trans (hgrows'.trans hwork''.toGrows)))

/-! ## The call of `map` -/

/-- Once `iter` is bound, the expression of `map` enters the first turn, which comes last. -/
theorem Around.starts (h : Around w m f i) (harr : w.store.get? m "arr" = some arr) (herror : arr.isError = false) :
    ∃ (w' : World) (s : Nat) (j : Identity), World.Works "f" m [] w w' ∧ Turn w' m f i s arr (.array j []) ∧ w.fresh ≤ j ∧
      Last m (fun n => evaluate n (.expr starting) m) w (fun n => evaluate n (.block iterBody) s) w' := by
  have hm : w.Own m m := h.own
  have hentered := works_entered hm (.expr starting)
  obtain ⟨_, w₁, rfl, hcallee, hw₁⟩ := idle_name (hm.mono hentered.toGrows) (h.mono hentered.toGrows).iter ⟨5, 3⟩
  have hwork := hentered.andThen hw₁
  have hname : w₁.store.get? m "arr" = some arr := (hwork.toGrows.get? h.there "arr").trans harr
  obtain ⟨_, w₂, rfl, harg, hw₂⟩ := idle_name (hm.mono hwork.toGrows) hname ⟨5, 8⟩
  have hwork' := hwork.andThen hw₂
  obtain ⟨_, w₃, ⟨k, hk, rfl⟩, hnone, hw₃⟩ := idle_empty (hm.mono hwork'.toGrows) ⟨5, 13⟩
  have hall := hwork'.andThen hw₃
  obtain ⟨hw₄, hturn⟩ := (h.mono hall.toGrows).turn arr (.array k [])
  have hargs := Settles.expressions_cons harg herror (.expressions_cons hnone rfl (settles_expressions_nil m w₃))
  refine ⟨_, _, k, hall.andThen hw₄, hturn, Nat.le_trans hwork'.fresh hk, fun v w₅ hv hw₅ hsettles => ?_⟩
  exact ⟨_, .call hcallee rfl hargs (settles_iter hv hsettles), works_left (hm.mono (hall.toGrows.trans
    (hw₄.toGrows.trans hw₅))) rfl⟩

/-- Binding `iter` in the scope of a call of `map` makes it what `iter` relies on. -/
theorem Ground.set {m : Nat} (h : Ground w m f) (i : Identity) (log : List Event) :
    Around { w with store := w.store.set m "iter" (.fn i iterParams iterBody m), log := log } m f i := by
  refine ⟨⟨?_, ?_, fun b hb => ?_⟩, Store.get?_set h.own.lt _ _⟩
  · simpa [Store.chain, Store.enclosing_set] using h.there
  · exact (Store.get?_set_of_ne _ (by decide) _ _).trans h.callee
  · have hnames : ∀ b ∈ [Builtin.len, .first, .rest, .push], b.name ≠ "iter" := by decide
    exact (Store.get?_set_of_ne _ (hnames b hb) _ _).trans (h.builtin b hb)

/-- The first statement of `map` binds `iter`, in the scope that the call has opened. -/
theorem Ground.binds {base : World} {m : Nat} (h : Ground w m f) (harr : w.store.get? m "arr" = some arr)
    (hwork : World.Works "f" m [] base w) (hnew : base.store.size ≤ m) :
    ∃ (w' : World) (i : Identity), World.Works "f" m [] base w' ∧
      Settles (fun n => evaluate n (.stmt binding) m) w .null w' ∧ Around w' m f i ∧ w'.store.get? m "arr" = some arr := by
  have hentered := works_entered h.own (.stmt binding)
  obtain ⟨_, w₁, ⟨i, rfl⟩, hliteral, hw₁⟩ := idle_iterLiteral (h.own.mono hentered.toGrows)
  have hall := hentered.andThen hw₁
  have h₁ := h.mono hall.toGrows
  have hbound := (hwork.andThen hall).bind h₁.own hnew "iter" (.fn i iterParams iterBody m)
  have haround := h₁.set i (.bind m "iter" (.fn i iterParams iterBody m) :: w₁.log)
  have hnode : (Event.leave (.stmt binding) m .null).answer? "f" = none := rfl
  have hleft := works_left haround.own hnode
  refine ⟨_, i, hbound.andThen hleft, .binding hliteral rfl, haround.mono hleft.toGrows, ?_⟩
  calc
    _ = _ := hleft.toGrows.get? haround.there "arr"
    _ = w₁.store.get? m "arr" := Store.get?_set_of_ne _ (by decide) _ _
    _ = w.store.get? m "arr" := hall.toGrows.get? h.there "arr"
    _ = some arr := harr

theorem ground_opened {top : ScopeId} (hthere : ∀ t ∈ w.store.chain top, (t : Nat) < w.store.size)
    (hbuiltin : ∀ b ∈ [Builtin.len, .first, .rest, .push], w.store.get? top b.name = none) (f arr : Value) :
    Ground (opened top "arr" "f" arr f w) w.store.size f := by
  refine ⟨?_, get?_opened hthere "f", fun b hb => ?_⟩
  · rw [Store.chain, size_opened]
    refine List.forall_mem_cons.2 ⟨Nat.lt_succ_self _, fun t ht => Nat.lt_succ_of_lt (hthere t ?_)⟩
    exact enclosing_opened_next ▸ ht
  · have hnames : ∀ b ∈ [Builtin.len, .first, .rest, .push], b.name ≠ "f" ∧ b.name ≠ "arr" := by decide
    refine (get?_opened hthere b.name).trans ?_
    simpa [hnames b hb] using hbuiltin b hb

/-- The call of `map` opens its scope, binds `iter` there, and enters the first turn, which comes last. -/
theorem begins {top : ScopeId} (hthere : ∀ t ∈ w.store.chain top, (t : Nat) < w.store.size)
    (hbuiltin : ∀ b ∈ [Builtin.len, .first, .rest, .push], w.store.get? top b.name = none) (g : Identity) (f : Value)
    (herror : arr.isError = false) : ∃ (w' : World) (i : Identity) (s : Nat) (j : Identity),
      World.Works "f" w.store.size [] w w' ∧ w.store.size < w'.store.size ∧
        Turn w' w.store.size f i s arr (.array j []) ∧ w.fresh ≤ j ∧
        Last w.store.size (fun n => apply (evaluate n) (.fn g mapParams mapBody top) [arr, f]) w
          (fun n => evaluate n (.block iterBody) s) w' := by
  have hopen : openCall mapParams top [arr, f] w = .value w.store.size (opened top "arr" "f" arr f w) := rfl
  have hopened : World.Works "f" w.store.size [] w (opened top "arr" "f" arr f w) :=
    works_opened (.refl _ _ _) List.mem_cons_self
  have hground := ground_opened hthere hbuiltin f arr
  have hblock := works_entered hground.own (.block mapBody)
  have harr := (hblock.toGrows.get? hground.there "arr").trans (get?_opened hthere "arr")
  obtain ⟨w₁, i, hw₁, hbinding, haround, harr⟩ :=
    (hground.mono hblock.toGrows).binds harr (hopened.andThen hblock) (Nat.le_refl _)
  have hending := works_entered haround.own (.stmt ending)
  have harr' := (hending.toGrows.get? haround.there "arr").trans harr
  obtain ⟨w₂, s, j, hw₂, hturn, hj, hlast⟩ := (haround.mono hending.toGrows).starts harr' herror
  have hwork := hw₁.andThen (hending.andThen hw₂)
  have hsize : w.store.size < w₂.store.size := hturn.there _ List.mem_cons_self
  refine ⟨w₂, i, s, j, hwork, hsize, hturn, Nat.le_trans hw₁.fresh hj, fun v w₃ hv hw₃ hsettles => ?_⟩
  obtain ⟨w₄, hstarting, hw₄⟩ := hlast v w₃ hv hw₃ hsettles
  have hbody := Settles.block (b := mapBody) (.statements_cons hbinding rfl (.statements_last (.statement hstarting)))
  have happly : Settles (fun n => apply (evaluate n) (.fn g mapParams mapBody top) [arr, f]) w v.unwrap _ :=
    .apply hopen hbody
  rw [Value.unwrap_of_not_isSignal hv] at happly
  have hown := hturn.toGround.own.mono (hw₃.trans hw₄.toGrows)
  have hleft : World.Works "f" w.store.size [] w₄ (left (.stmt ending) w.store.size v w₄) := works_left hown rfl
  exact ⟨_, happly, hw₄.andThen (hleft.andThen (works_left (hown.mono hleft.toGrows) rfl))⟩

/-- In a state that runs get to, a call of `map` follows the calls of `f`. -/
theorem follows_calls {w : World} {hand : List Value} (hw : w.Reachable hand) {top : ScopeId}
    (hthere : ∀ t ∈ w.store.chain top, (t : Nat) < w.store.size)
    (hbuiltin : ∀ b ∈ [Builtin.len, .first, .rest, .push], w.store.get? top b.name = none) (g : Identity) {i : Identity}
    {xs : List Value} {f : Value} (harray : .array i xs ∈ hand) (hf : f ∈ hand) (hxs : ∀ x ∈ xs, x.isSignal = false)
    {n : Nat} {ys : List Value} {u : World} (hcalls : (callEach (evaluate n) f xs).run w = (some ys, u))
    (hys : ∀ y ∈ ys, y.isSignal = false) : ∃ (k : Identity) (zs : List Value) (w' : World),
      Settles (fun n => apply (evaluate n) (.fn g mapParams mapBody top) [.array i xs, f]) { w with log := [] }
        (.array k zs) w' ∧ w.fresh ≤ k ∧ World.Follows { w with log := [] } "f" w.store.size u ys w' zs := by
  obtain ⟨hkept, hgood⟩ := (hw.logged []).standing
  have helements : ∀ x ∈ xs, x.isSignal = false ∧ Regime.standing.Good { w with log := [] } x := fun x hx =>
    ⟨hxs x hx, (hgood _ harray).held hx⟩
  obtain ⟨w₁, j, s, k, hwork, hsize, hturn, hk, hlast⟩ :=
    begins (w := { w with log := [] }) hthere hbuiltin g f (show (Value.array i xs).isError = false from rfl)
  obtain ⟨k', zs, w₂, hbody, hk', hgrows, hfollows⟩ :=
    hturn.follows (hgood f hf) (hwork.follows hkept rfl hsize) hk helements (value_of_run hcalls) hys
  obtain ⟨w₃, happly, hwork'⟩ := hlast (.array k' zs) w₂ rfl hgrows hbody
  exact ⟨k', zs, w₃, happly, hk', hfollows.works hwork'⟩

/-! ## The definition in a session -/

/-- A new session after the definition. -/
def session (settings : Settings) : Session := (Session.start.submit settings source).session

/-- The world after the definition. -/
def defined : World := ((evaluate 3 (.program program) Session.start.top).run Session.start.world).2

theorem submit_source {settings : Settings} (hnesting : 3 ≤ settings.nesting) :
    (Session.start.submit settings source).verdict = .value .null ∧
      session settings = ⟨defined, Session.start.top⟩ := by
  have herrors : (parse source).errors = [] := by rw [Parsed.errors, parse_source.1, List.map_nil]
  have hthree : evaluate 3 (.program program) Session.start.top { Session.start.world with log := [] } =
      .value .null defined := rfl
  have hrun : Session.start.run settings source = (some .null, defined) := by
    rw [Session.run, parse_source.2, Eval.run, evaluate_within hnesting _ _ _ _ _ hthree]
  exact ⟨by rw [Session.verdict_accepted _ _ herrors, hrun]; rfl,
    by rw [session, Session.submit_accepted _ _ herrors, hrun]⟩

/-- **The program maps.**  In a new session the definition binds `map`, without a result to show.  In any later state,
where the names of the builtin functions that it uses have not been bound, let `f` be called on the elements of an array
in order, and let each call give an ordinary value.  Then the call of `map` on this array and `f` gives, with room
enough, a new array of the results in order.  All that happens outside of the scope that this call opens are the calls
of `f` as they were, so it prints what they print; inside of that scope, `f` is called once for each result.  Results
and events are the same up to the numbers of what is made meanwhile.  No scope from before has changed, and the array
given is what it was. -/
theorem calls_each_once {settings : Settings} (hnesting : 3 ≤ settings.nesting) {w : World} {hand : List Value}
    (hw : w.Reachable hand) (hlater : (session settings).world.Older w)
    (hbuiltin : ∀ b ∈ [Builtin.len, .first, .rest, .push], w.store.get? (session settings).top b.name = none)
    {i : Identity} {xs : List Value} {f : Value} (harray : .array i xs ∈ hand) (hf : f ∈ hand)
    (hxs : ∀ x ∈ xs, x.isSignal = false) {n : Nat} {ys : List Value} {u : World}
    (hcalls : (callEach (evaluate n) f xs).run w = (some ys, u)) (hys : ∀ y ∈ ys, y.isSignal = false) :
    (Session.start.submit settings source).verdict = .value .null ∧
    ∃ g, (session settings).world.store.get? (session settings).top "map" = some g ∧
    ∃ (k : Identity) (r : Renaming) (w' : World),
      (∃ m, ∀ n, m ≤ n →
        (apply (evaluate n) g [.array i xs, f]).run w = (some (.array k (ys.map (Value.rename r))), w')) ∧
      w.fresh ≤ k ∧
      r.place = id ∧ (∀ j : Nat, j < w.fresh → r.identity j = j) ∧ (∀ t : Nat, t < w.store.size → r.scope t = t) ∧
      (w'.events.filter fun e => !e.inside w'.store w.store.next) = u.events.map (Event.rename r) ∧
      (w'.events.filter (·.inside w'.store w.store.next)).filterMap (Event.answer? "f") = ys.map (Value.rename r) ∧
      w'.output false = u.output false ∧
      (∀ t : Nat, t < w.store.size → w'.store.scopes[t]? = w.store.scopes[t]?) ∧
      ∀ v, w'.There [.array k (ys.map (Value.rename r))] v → v.identity? = some i → v = .array i xs := by
  obtain ⟨hverdict, hsession⟩ := submit_source hnesting
  rw [hsession] at hlater hbuiltin ⊢
  have hzero : 0 < w.store.size := hlater.size
  have houtermost : defined.store.enclosing Session.start.top = [] := by decide +kernel
  have hchain : w.store.chain Session.start.top = [Session.start.top] :=
    congrArg (Session.start.top :: ·) ((hlater.enclosing Session.start.top Nat.zero_lt_one).trans houtermost)
  have hthere : ∀ t ∈ w.store.chain Session.start.top, (t : Nat) < w.store.size := by
    rw [hchain]
    exact List.forall_mem_singleton.2 hzero
  obtain ⟨k, zs, w', hsettles, hk, r, halong, rfl, -, hanswers⟩ :=
    follows_calls hw hthere hbuiltin 0 harray hf hxs hcalls hys
  obtain ⟨m, hm⟩ := hsettles
  refine ⟨hverdict, .fn 0 mapParams mapBody Session.start.top, rfl, k, r, w', ⟨m, fun n hn => ?_⟩, hk, halong.place,
    halong.identity, halong.scope, halong.events, ?_, halong.output, halong.grows.scopes, fun v hv hi => ?_⟩
  · have hrun : apply (evaluate n) _ _ { w with log := [] } = _ := hm n hn
    rw [Eval.run, hrun]
  · rw [World.events, List.filter_reverse, List.filterMap_reverse]
    exact (congrArg List.reverse hanswers).trans (List.reverse_reverse _)
  · -- an object with an identity from before was there before, and so was the array
    have hargs : ∀ a ∈ [.array i xs, f], a ∈ hand := List.forall_mem_cons.2 ⟨harray, List.forall_mem_singleton.2 hf⟩
    have hold : w.There hand v := by
      have hlt : i < w.fresh := (((hw.logged []).standing.2 _ harray) _ (.self _)).1 i rfl
      have hresult : w'.Has v ∨ Value.HasPart (.array k (ys.map (Value.rename r))) v := by
        simpa [World.There] using hv
      obtain hbound | ⟨a, ha, hpart⟩ := ((frame_law m).2 _ _ _ w' _ (hm m (Nat.le_refl m))).2 v i hresult hi hlt
      · exact .inl hbound
      · exact .inr ⟨a, hargs a ha, hpart⟩
    exact hw.eq_of_identity hold (.inr ⟨_, harray, .self _⟩) hi rfl

/-- The array `[1, 2, 3]`, and a function that prints its argument and doubles it. -/
theorem calls_each_once_doubling :
    ∃ (w w' : World) (g f : Value) (i k : Identity) (xs zs : List Value) (n : Nat),
      (session .default).world.store.get? 0 "map" = some g ∧ w.store.get? 0 "a" = some (.array i xs) ∧
      w.store.get? 0 "f" = some f ∧ (apply (evaluate n) g [.array i xs, f]).run w = (some (.array k zs), w') ∧
      (Value.array i xs).render = "[1, 2, 3]" ∧ (Value.array k zs).render = "[2, 4, 6]" ∧
      w'.output false = "1\n2\n3\n" ∧ i < k ∧ ∀ v, w'.There [.array k zs] v → v.identity? = some i → v = .array i xs := by
  have hsession : session .default = ⟨defined, Session.start.top⟩ := (submit_source (by decide)).2
  obtain ⟨w, hand, f, a, hw, hlater, hbuiltin, hf, ha, htype, hrender, hordinary, hresults, hprints⟩ :
      ∃ (w : World) (hand : List Value) (f a : Value),
      w.Reachable hand ∧ defined.Older w ∧
      (∀ b ∈ [Builtin.len, .first, .rest, .push], (w.store.get? 0 b.name).isNone = true) ∧ w.store.get? 0 "f" = some f ∧
      w.store.get? 0 "a" = some a ∧ a.type = .array ∧ a.render = "[1, 2, 3]" ∧ (∀ x ∈ a.held, x.isSignal = false) ∧
      ((callEach (evaluate 20) f a.held).run w).1.map (fun ys => ((Value.array 0 ys).render, ys.all (!·.isSignal))) =
        some ("[2, 4, 6]", true) ∧
      ((callEach (evaluate 20) f a.held).run w).2.output false = "1\n2\n3\n" := by
    obtain ⟨hand, hw⟩ := World.reachable_start.submit (by decide) .default source
    rw [← session, hsession] at hw
    obtain ⟨hand', hw'⟩ := hw.submit (by decide +kernel) .default
      "let f = fn(x) \x7b puts(x); x * 2 \x7d; let a = [1, 2, 3]"
    have hname (st : Store) (name : String) (h : (st.get? 0 name).isSome = true) :
        st.get? 0 name = some ((st.get? 0 name).getD .null) := by
      obtain ⟨v, hv⟩ := Option.isSome_iff_exists.1 h
      rw [hv]
      rfl
    exact ⟨_, hand', _, _, hw', ⟨by decide +kernel, by decide +kernel, by decide +kernel⟩, by decide +kernel,
      hname _ "f" (by decide +kernel), hname _ "a" (by decide +kernel), by decide +kernel, by decide +kernel,
      by decide +kernel, by decide +kernel, by decide +kernel⟩
  obtain ⟨i, xs, rfl⟩ : ∃ i xs, a = .array i xs := by
    cases a with
    | array i xs => exact ⟨i, xs, rfl⟩
    | _ => cases htype
  obtain ⟨ys, hys, hshown⟩ := Option.map_eq_some_iff.1 hresults
  rw [Prod.mk.injEq] at hshown
  obtain ⟨s, hmem⟩ := Store.exists_of_get? hf
  obtain ⟨t, hmem'⟩ := Store.exists_of_get? ha
  have hw' : w.Reachable (.array i xs :: f :: hand) := (hw.bound hmem).bound hmem'
  obtain ⟨-, g, hg, k, r, w', ⟨n, hn⟩, hk, -, -, -, -, -, houtput, -, hkept⟩ :=
    calls_each_once (show 3 ≤ Settings.default.nesting by decide) hw' (by rwa [hsession])
      (fun b hb => by rw [hsession]; exact Option.isNone_iff_eq_none.1 (hbuiltin b hb)) List.mem_cons_self
      (List.mem_cons_of_mem _ List.mem_cons_self) hordinary (Prod.ext hys rfl)
      fun y hy => by simpa using List.all_eq_true.1 hshown.2 y hy
  have hlt : i < w.fresh := ((hw'.standing.2 _ List.mem_cons_self) _ (.self _)).1 i rfl
  refine ⟨w, w', g, f, i, k, xs, _, n, by rwa [hsession] at hg ⊢, ha, hf, hn n (Nat.le_refl n), hrender, ?_,
    houtput.trans hprints, Nat.lt_of_lt_of_le hlt hk, hkept⟩
  rw [← Value.renameAll_eq]
  exact (congrArg (fun texts => "[" ++ ", ".intercalate texts ++ "]") (Value.renderAll_rename r ys)).trans hshown.1

end Mapping

end Monkey
