import Mathlib.Data.List.Forall2
import Monkey.Proofs.Frame
import Monkey.Proofs.Walks
/-!
# The order of evaluation

A scope is used by one activation only, the program's own or one call, so the nodes that are entered in a scope are
those of its activation.  They are entered in the order of a walk over the tree: each at most once, and none inside a
function literal (`Node.activation`).  Every rule enters what it enters below in the order of the children, and what it
calls is the body of a function to which a callee has been evaluated (`Course`); from the rules it follows for every
evaluation (`Eval.courses_evaluate`).  A debug listing shows the nodes as they are entered, between the printed lines.
-/
namespace Monkey

/-! ## What an activation may enter -/

namespace Node

def isLiteral : Node → Bool
  | expr (.fn _ _ _) => true
  | _ => false

/-- The nodes of a walk but for those inside function literals: behind a literal these are the deeper ones, up to the
first that is not. -/
def outside : Option Int → List (Int × Node) → List Node
  | _, [] => []
  | literal, (depth, nd) :: rest =>
    if literal.any (· < depth) then outside literal rest
    else nd :: outside (if nd.isLiteral then some depth else none) rest

/-- The nodes that an activation may enter if its root is this node, in source order. -/
def activation (nd : Node) : List Node := outside none (nd.walk 0)

/-- The children that belong to the same activation. -/
def parts (nd : Node) : List Node := if nd.isLiteral then [] else nd.children

theorem outside_sublist : ∀ (literal : Option Int) (visits : List (Int × Node)),
    List.Sublist (outside literal visits) (visits.map (·.2))
  | _, [] => .slnil
  | literal, (depth, nd) :: rest => by
    rw [outside]
    split
    · exact .cons _ (outside_sublist literal rest)
    · exact .cons_cons _ (outside_sublist _ rest)

theorem outside_eq_nil {depth : Int} : ∀ {visits : List (Int × Node)}, (∀ q ∈ visits, depth < q.1) →
    outside (some depth) visits = []
  | [], _ => rfl
  | (d, nd) :: rest, h => by
    obtain ⟨hd, hrest⟩ := List.forall_mem_cons.1 h
    rw [outside, if_pos (by simpa using hd), outside_eq_nil hrest]

/-- Where a walk comes back to some depth, it is outside the literals behind it. -/
theorem outside_append {k : Int} {visits' : List (Int × Node)} (h' : ∀ q ∈ visits'.head?, q.1 ≤ k) :
    ∀ {visits : List (Int × Node)} {literal : Option Int}, (∀ q ∈ visits, k ≤ q.1) → (∀ d ∈ literal, k ≤ d) →
      outside literal (visits ++ visits') = outside literal visits ++ outside none visits'
  | [], literal, _, hliteral => by
    cases visits' with
    | nil => rfl
    | cons q rest =>
      have hq := h' q rfl
      have hback : literal.any (· < q.1) = false := by
        cases literal with
        | none => rfl
        | some d =>
          have := hliteral d rfl
          simpa using (by omega : q.1 ≤ d)
      rw [List.nil_append, outside, outside, hback]
      rfl
  | (d, nd) :: rest, literal, h, hliteral => by
    obtain ⟨hd, hrest⟩ := List.forall_mem_cons.1 h
    rw [List.cons_append, outside, outside]
    split
    · exact outside_append h' hrest hliteral
    · rw [outside_append h' hrest, List.cons_append]
      split
      · exact fun _ hmem => by cases hmem; exact hd
      · exact nofun

theorem outside_flatMap (k : Int) : ∀ nds : List Node,
    outside none (nds.flatMap (walk k)) = nds.flatMap fun nd => outside none (nd.walk k)
  | [] => rfl
  | nd :: nds => by
    rw [List.flatMap_cons, List.flatMap_cons, ← outside_flatMap k nds]
    refine outside_append (k := k) ?_ le_of_mem_walk nofun
    cases nds with
    | nil => exact nofun
    | cons nd' nds =>
      rw [List.flatMap_cons, walk_eq k nd']
      rintro q ⟨⟩
      exact Int.le_refl k

theorem outside_walk_eq (depth : Int) (nd : Node) :
    outside none (nd.walk depth) = nd :: nd.parts.flatMap fun child => outside none (child.walk (depth + 1)) := by
  rw [walk_eq, outside, if_neg (by simp), parts]
  split
  · have hdeeper : ∀ q ∈ nd.children.flatMap (walk (depth + 1)), depth < q.1 := fun q hq => by
      obtain ⟨child, -, hq⟩ := List.mem_flatMap.1 hq
      exact Int.lt_of_add_one_le (le_of_mem_walk q hq)
    rw [outside_eq_nil hdeeper]
    rfl
  · rw [outside_flatMap]

theorem mem_children_of_parts {nd child : Node} (h : child ∈ nd.parts) : child ∈ nd.children := by
  unfold parts at h
  split at h
  · cases h
  · exact h

/-- It does not matter how deep a tree stands in another. -/
theorem outside_walk (nd : Node) : ∀ depth : Int, outside none (nd.walk depth) = nd.activation := by
  induction nd using ofChildren with
  | h nd ih =>
    intro depth
    rw [activation, outside_walk_eq, outside_walk_eq]
    refine congrArg (nd :: ·) (List.flatMap_congr fun child hchild => ?_)
    rw [ih child (mem_children_of_parts hchild), ih child (mem_children_of_parts hchild)]

/-- An activation enters its root and then goes over the parts of the root. -/
theorem activation_eq (nd : Node) : nd.activation = nd :: nd.parts.flatMap activation := by
  rw [activation, outside_walk_eq]
  exact congrArg (nd :: ·) (List.flatMap_congr fun child _ => outside_walk child 1)

theorem activation_sublist (nd : Node) : List.Sublist nd.activation ((nd.walk 0).map (·.2)) :=
  outside_sublist none _

end Node

namespace Expr

/-- The blocks of a conditional, one of which it may enter when its operand has been evaluated. -/
def branches : Expr → List Node
  | .cond _ _ consequence alternative => .block consequence :: alternative.toList.map .block
  | _ => []

theorem mem_branches {pos : Pos} {condition : Expr} {consequence block : Block} {alternative : Option Block}
    (h : block = consequence ∨ alternative = some block) :
    .block block ∈ (Expr.cond pos condition consequence alternative).branches := by
  rcases h with rfl | rfl
  · exact List.mem_cons_self
  · exact List.mem_cons_of_mem _ List.mem_cons_self

theorem parts_eq {e : Expr} (he : ∀ pos entries, e ≠ .hash pos entries) :
    (Node.expr e).parts = e.operands.map .expr ++ e.branches := by
  cases e with
  | hash pos entries => exact absurd rfl (he pos entries)
  | _ => simp [Node.parts, Node.isLiteral, Node.children, operands, branches]

end Expr

/-! ## Courses -/

/-- The node that an event enters. -/
def Event.entered? : Event → Option Node
  | enter nd _ => some nd
  | _ => none

/-- The nodes entered in a scope, in the order in which they are entered. -/
def Event.entered (t : ScopeId) (es : List Event) : List Node :=
  (es.filter fun e => e.scope? = some t).filterMap Event.entered?

/-- In some scope a call has been entered, and its callee has been evaluated to a function with this body. -/
def Event.Called (body : Block) (es : List Event) : Prop :=
  ∃ pos callee args s id params scope, Event.enter (.expr (.call pos callee args)) s ∈ es ∧
    Event.leave (.expr callee) s (.fn id params body scope) ∈ es

/-- The nodes entered in one activation with this root: first the root, then others in source order, each at most once
and none inside a function literal. -/
structure Runs (root : Node) (nds : List Node) : Prop where
  first : nds.head? = some root
  order : List.Sublist nds ((root.walk 0).map (·.2))
  outside : List.Sublist nds root.activation

/-- What happens in the scope `s` after the events `pre`, from `w` to `w'`: in `s` nodes of `visit` are entered in their
order, and in every scope opened meanwhile the body of a function that has been called. -/
structure Course (pre : List Event) (s : Nat) (visit : List Node) (es : List Event) (w w' : World) : Prop where
  footprint : Footprint (fun e => e.scope? = some s) es w w'
  order : List.Sublist (Event.entered s es) visit
  calls : ∀ t : Nat, w.store.size ≤ t → Event.entered t es ≠ [] →
    ∃ body, Event.Called body (pre ++ es) ∧ Runs (.block body) (Event.entered t es)

namespace Event

@[simp] theorem entered_append (t : ScopeId) (es es' : List Event) :
    entered t (es ++ es') = entered t es ++ entered t es' := by
  rw [entered, List.filter_append, List.filterMap_append]
  rfl

theorem entered_eq_nil {t : ScopeId} {es : List Event} (h : ∀ e ∈ es, e.scope? ≠ some t) : entered t es = [] := by
  rw [entered, List.filter_eq_nil_iff.2 fun e he => by simpa using h e he]
  rfl

theorem Called.mono {body : Block} {es es' : List Event} (h : Called body es) (hes : ∀ e ∈ es, e ∈ es') :
    Called body es' :=
  let ⟨pos, callee, args, s, id, params, scope, henter, hleave⟩ := h
  ⟨pos, callee, args, s, id, params, scope, hes _ henter, hes _ hleave⟩

end Event

namespace Course

open Event

variable {pre es es' : List Event} {s : Nat} {visit visit' : List Node} {w w' w'' : World}

theorem nil (hstore : w'.store = w.store) : Course pre s visit [] w w' :=
  ⟨.of_store_eq hstore, List.nil_sublist _, fun _ _ h => absurd rfl h⟩

theorem mono (h : Course pre s visit es w w') (hvisit : List.Sublist visit visit') : Course pre s visit' es w w' :=
  ⟨h.footprint, h.order.trans hvisit, h.calls⟩

/-- In scopes that are neither `s` nor new nothing is entered. -/
theorem entered_eq_nil (h : Course pre s visit es w w') {t : Nat} (ht : t ≠ s)
    (hold : t < w.store.size ∨ w'.store.size ≤ t) : entered t es = [] := by
  refine Event.entered_eq_nil fun e he hscope => ?_
  rcases h.footprint.events e he t hscope with hnew | ⟨hlt, hown⟩
  · omega
  · rw [hscope, Option.some.injEq] at hown
    exact ht hown

theorem append (hs : s < w.store.size) (h : Course pre s visit es w w') (h' : Course (pre ++ es) s visit' es' w' w'') :
    Course pre s (visit ++ visit') (es ++ es') w w'' := by
  refine ⟨h.footprint.trans h'.footprint, ?_, fun t ht hne => ?_⟩
  · rw [entered_append]
    exact h.order.append h'.order
  · -- a scope belongs to the part in which it is opened
    have hgrows := h.footprint.grows
    rw [entered_append] at hne ⊢
    by_cases hfirst : t < w'.store.size
    · rw [h'.entered_eq_nil (by omega) (.inl hfirst), List.append_nil] at hne ⊢
      obtain ⟨body, hcalled, hruns⟩ := h.calls t ht hne
      rw [← List.append_assoc]
      exact ⟨body, hcalled.mono fun _ => List.mem_append_left _, hruns⟩
    · rw [h.entered_eq_nil (by omega) (.inr (Nat.not_lt.1 hfirst)), List.nil_append] at hne ⊢
      obtain ⟨body, hcalled, hruns⟩ := h'.calls t (Nat.not_lt.1 hfirst) hne
      exact ⟨body, by rwa [← List.append_assoc], hruns⟩

/-- A call runs the body of its function in a scope of its own. -/
theorem of_push {outer : Option ScopeId} {body : Block} (hs : s < w.store.size)
    (h : Course pre w.store.size (Node.activation (.block body)) es { w with store := w.store.push outer } w')
    (hfirst : (entered w.store.size es).head? = some (.block body)) (hcalled : Called body pre) :
    Course pre s visit es w w' := by
  have hframe := h.footprint.of_push fun _ he => he
  have hnone : entered s es = [] := Event.entered_eq_nil fun e he hscope => by
    rcases hframe.events e he s hscope with hnew | ⟨-, hfalse⟩
    · omega
    · exact hfalse
  refine ⟨hframe.mono fun _ => False.elim, hnone ▸ List.nil_sublist _, fun t ht hne => ?_⟩
  rcases Nat.eq_or_lt_of_le ht with rfl | hlt
  · exact ⟨body, hcalled.mono fun _ => List.mem_append_left _, hfirst,
      h.order.trans (Node.activation_sublist _), h.order⟩
  · exact h.calls t (by rwa [Store.size_push]) hne

end Course

namespace Eval

open Event

/-- In the scope `s`, if it exists, the evaluation enters nodes of `visit` in their order. -/
def Courses {α : Type} (pre : List Event) (s : Nat) (visit : List Node) (x : Eval α) : Prop :=
  ∀ w, s < w.store.size → x.Gives w fun es _ w' => Course pre s visit es w w'

section

variable {α β : Type} {pre : List Event} {s : Nat} {visit visit' : List Node} {x : Eval α}

theorem Courses.mono (hx : Courses pre s visit x) (hvisit : List.Sublist visit visit') : Courses pre s visit' x :=
  fun w hw => (hx w hw).imp fun _ _ _ h => h.mono hvisit

/-- One node among those that may be entered. -/
theorem Courses.among {nd : Node} {nds : List Node} (hx : Courses pre s nd.activation x) (h : nd ∈ nds) :
    Courses pre s (nds.flatMap Node.activation) x :=
  hx.mono (List.sublist_flatten_of_mem (List.mem_map_of_mem h))

/-- What comes second may rely on what is known of the first part. -/
theorem Courses.bind {f : α → Eval β} {Q : List Event → α → Prop} (hx : Courses pre s visit x)
    (hQ : ∀ w, s < w.store.size → x.Gives w fun es a _ => Q es a)
    (hf : ∀ es a, Q es a → Courses (pre ++ es) s visit' (f a)) : Courses pre s (visit ++ visit') (x >>= f) :=
  fun w hw => ((hx w hw).and (hQ w hw)).bind fun es a w' ⟨h, hQa⟩ =>
    (hf es a hQa w' (Nat.lt_of_lt_of_le hw h.footprint.grows)).imp fun _ _ _ h' => h.append hw h'

theorem Courses.then {f : α → Eval β} (hx : Courses pre s visit x) (hf : ∀ pre a, Courses pre s visit' (f a)) :
    Courses pre s (visit ++ visit') (x >>= f) :=
  hx.bind (Q := fun _ _ => True) (fun w hw => (hx w hw).imp fun _ _ _ _ => trivial) fun _ a _ => hf _ a

/-- Nothing more is entered. -/
theorem Courses.before {f : α → Eval β} (hx : Courses pre s visit x) (hf : ∀ pre a, Courses pre s [] (f a)) :
    Courses pre s visit (x >>= f) := by
  have h := hx.then hf
  rwa [List.append_nil] at h

theorem courses_ite {c : Prop} [Decidable c] {y : Eval α} (hx : Courses pre s visit x) (hy : Courses pre s visit y) :
    Courses pre s visit (if c then x else y) := by
  split
  · exact hx
  · exact hy

theorem Courses.of_silent (hx : x.Silent) : Courses pre s visit x := fun w _ =>
  (hx w).imp fun es _ _ ⟨hes, hstore⟩ => by
    subst hes
    exact .nil hstore

theorem courses_pure (a : α) : Courses pre s visit (pure a) := .of_silent (silent_pure a)

theorem courses_enter (nd : Node) : Courses pre s [nd] (emit (.enter nd s)) := by
  have hlt : ∀ t : Nat, some s = some t → t < s + 1 := fun t h => by cases h; exact Nat.lt_succ_self s
  have hframe : Framed (s + 1) (fun e => e.scope? = some s) (emit (.enter nd s)) := framed_emit nofun hlt rfl
  refine fun w hw => ((hframe w hw).and (gives_emit (D := fun es _ _ => es = [.enter nd s]) rfl)).imp ?_
  rintro _ _ w' ⟨h, rfl⟩
  refine ⟨h, by simp [entered, scope?, entered?], fun t ht hne => absurd ?_ hne⟩
  have hts : some s ≠ some t := fun h => by cases h; omega
  exact Event.entered_eq_nil fun e he => List.mem_singleton.1 he ▸ hts

/-- An evaluation with a single event, that enters no node. -/
theorem courses_single {e : Event} {x : Eval Unit} (he : e.entered? = none)
    (hframe : Framed (s + 1) (fun e => e.scope? = some s) x) (hx : ∀ w, x.Gives w fun es _ _ => es = [e]) :
    Courses pre s visit x := fun w hw =>
  ((hframe w hw).and (hx w)).imp fun es _ w' ⟨h, heq⟩ => by
    subst heq
    have hnone (t : Nat) : entered t [e] = [] := by
      unfold entered
      rw [List.filterMap_filter]
      simp [he]
    exact ⟨h, hnone s ▸ List.nil_sublist _, fun t _ hne => absurd (hnone t) hne⟩

theorem courses_leave (nd : Node) (v : Value) : Courses pre s visit (emit (.leave nd s v)) :=
  courses_single rfl (framed_emit nofun (fun t h => by cases h; exact Nat.lt_succ_self s) rfl) fun _ => gives_emit rfl

theorem courses_print (line : String) : Courses pre s visit (emit (.print line)) :=
  courses_single rfl (framed_emit_print line) fun _ => gives_emit rfl

theorem courses_bindName (name : String) (v : Value) : Courses pre s visit (bindName s name v) :=
  courses_single rfl (framed_bindName (Nat.lt_succ_self s) rfl) fun _ => gives_bindName rfl

/-! ## Calls -/

theorem courses_printAll : ∀ (pre : List Event) (vs : List Value), Courses pre s [] (Builtin.printAll vs)
  | _, [] => courses_pure _
  | _, _ :: vs => (courses_print _).before fun pre _ => courses_printAll pre vs

theorem courses_callBuiltin (f : Builtin) (args : List Value) : Courses pre s [] (f.call args) := by
  rcases f.call_cases args with h | h
  · rw [h]
    exact (courses_printAll pre args).before fun _ _ => courses_pure _
  · exact .of_silent (silent_answers h)

theorem courses_bindParams : ∀ (pre : List Event) (params : List Ident) (args : List Value),
    Courses pre s [] (bindParams s params args)
  | _, [], _ => courses_pure _
  | _, p :: params, _ => (courses_bindName p.name _).before fun pre _ => courses_bindParams pre params _

end

section

variable {ev : Below} {s : Nat}
  (hev : ∀ (pre : List Event) (nd : Node) (s : Nat), Courses pre s nd.activation (ev nd s))
include hev

/-! ## Lists of nodes -/

theorem courses_expressions : ∀ (pre : List Event) (es : List Expr),
    Courses pre s ((es.map Node.expr).flatMap Node.activation) (expressions ev s es)
  | _, [] => courses_pure _
  | pre, e :: es => (hev pre (.expr e) s).then fun pre v => courses_ite (courses_pure _) <|
    (courses_expressions pre es).before fun _ r => by cases r <;> exact courses_pure _

theorem courses_pairs : ∀ (pre : List Event) (entries : List (Expr × Expr)) (done : List (Key × Value)),
    Courses pre s ((entries.flatMap fun pair => [Node.expr pair.1, Node.expr pair.2]).flatMap Node.activation)
      (pairs ev s done entries)
  | _, [], _ => courses_pure _
  | pre, (key, value) :: entries, done => (hev pre (.expr key) s).then fun pre k => courses_ite (courses_pure _) <| by
    split
    · exact (Courses.of_silent (silent_made _)).before fun _ _ => courses_pure _
    · exact (hev pre (.expr value) s).then fun pre v => courses_ite (courses_pure _) (courses_pairs pre entries _)

theorem courses_statements : ∀ (pre : List Event) (ss : List Stmt) (last : Value),
    Courses pre s ((ss.map Node.stmt).flatMap Node.activation) (statements ev s last ss)
  | _, [], _ => courses_pure _
  | pre, st :: ss, _ => (hev pre (.stmt st) s).then fun pre v => courses_ite (courses_pure _) <|
    courses_statements pre ss v

/-- The name of a binding is no node that is evaluated. -/
theorem courses_stmt (pre : List Event) (st : Stmt) :
    Courses pre s ((Node.stmt st).parts.flatMap Node.activation) (stmt ev s st) := by
  cases st with
  | expr token value => exact (hev pre (.expr value) s).among List.mem_cons_self
  | bind pos name value =>
    refine ((hev pre (.expr value) s).among (List.mem_cons_of_mem _ List.mem_cons_self)).before fun _ v => ?_
    exact courses_ite (courses_pure _) ((courses_bindName name.name v).before fun _ _ => courses_pure _)
  | ret pos value? =>
    cases value? with
    | none => exact .of_silent (silent_made _)
    | some value =>
      refine ((hev pre (.expr value) s).among List.mem_cons_self).before fun _ v => ?_
      exact courses_ite (courses_pure _) (.of_silent (silent_made _))

variable (hends : ∀ (nd : Node) (s : Nat) (w : World), s < w.store.size →
  (ev nd s).Gives w fun es v _ => ∃ mid, es = .enter nd s :: (mid ++ [.leave nd s v]))
include hends

/-! ## Calls and expressions -/

/-- A call enters nothing in the scope where it is made. -/
theorem courses_apply {pre : List Event} {callee : Value} {args : List Value}
    (hcalled : ∀ id params body scope, callee = .fn id params body scope → Called body pre) :
    Courses pre s [] (apply ev callee args) := by
  cases callee with
  | builtin f => exact courses_callBuiltin f args
  | fn id params body scope =>
    rw [apply_fn]
    intro w hw
    refine gives_openScope_bind ?_
    have hnew : w.store.size < (w.store.push (some scope)).size := by simp
    refine (courses_bindParams pre params args _ hnew).bind fun es _ w₁ h => ?_
    have hlt := Nat.lt_of_lt_of_le hnew h.footprint.grows
    -- the parameters are bound before anything is entered, so the body is what is entered first in the new scope
    refine ((hev (pre ++ es) (.block body) _ w₁ hlt).and (hends _ _ w₁ hlt)).bind fun es' v w₂ ⟨h', mid, hmid⟩ => ?_
    refine gives_pure ?_
    rw [List.append_nil]
    refine (h.append hnew h').of_push hw ?_ (hcalled _ _ _ _ rfl)
    have hnone : entered w.store.size es = [] := List.sublist_nil.1 h.order
    rw [entered_append, hnone, hmid]
    simp [entered, scope?, entered?]
  | _ => exact .of_silent (silent_made _)

/-- The values are those to which the expressions have been evaluated. -/
theorem leaves_expressions : ∀ (es : List Expr) (w : World), s < w.store.size →
    (expressions ev s es).Gives w fun evs r _ => ∀ vs, r = .ok vs →
      List.Forall₂ (fun e v => .leave (.expr e) s v ∈ evs) es vs
  | [], _, _ => gives_pure fun _ h => by cases h; exact .nil
  | e :: es, w, hw => by
    refine ((hev [] (.expr e) s w hw).and (hends (.expr e) s w hw)).bind fun evs v w₁ ⟨h, mid, hmid⟩ => ?_
    split
    · exact gives_pure nofun
    · refine (leaves_expressions es w₁ (Nat.lt_of_lt_of_le hw h.footprint.grows)).bind fun evs' r w₂ hleaves => ?_
      cases r with
      | error u => exact gives_pure nofun
      | ok vs =>
        refine gives_pure fun _ h => ?_
        cases h
        exact .cons (by simp [hmid]) ((hleaves vs rfl).imp fun _ _ hmem => by simp [hmem])

theorem courses_finish {pre : List Event} {e : Expr} {vs : List Value} (henter : .enter (.expr e) s ∈ pre)
    (hvs : List.Forall₂ (fun e v => .leave (.expr e) s v ∈ pre) e.operands vs) :
    Courses pre s (e.branches.flatMap Node.activation) (finish ev s e vs) := by
  have h : Finishes ev s e vs (finish ev s e vs) := finishes_finish e vs
  generalize finish ev s e vs = x at h ⊢
  cases h with
  | named => exact .of_silent (silent_named s _)
  | answer h => exact .of_silent (silent_answers h)
  | function => exact .of_silent (silent_made _)
  | branch he hb =>
    subst he
    exact (hev pre (.block _) s).among (Expr.mem_branches hb)
  | call he hargs =>
    subst he hargs
    have hcallee := (List.forall₂_cons.1 hvs).1
    exact courses_apply hev hends fun id params body scope hf =>
      ⟨_, _, _, s, id, params, scope, henter, hf ▸ hcallee⟩

theorem courses_expr {pre : List Event} {e : Expr} (henter : .enter (.expr e) s ∈ pre) :
    Courses pre s ((Node.expr e).parts.flatMap Node.activation) (expr ev s e) := by
  by_cases he : ∃ pos entries, e = .hash pos entries
  · obtain ⟨pos, entries, rfl⟩ := he
    refine (courses_pairs hev pre entries []).before fun _ r => ?_
    cases r with
    | ok kvs => exact .of_silent (silent_made _)
    | error v => exact courses_pure _
  · have hhash : ∀ pos entries, e ≠ .hash pos entries := fun pos entries h => he ⟨pos, entries, h⟩
    rw [expr_eq_finish hhash, Expr.parts_eq hhash, List.flatMap_append]
    refine (courses_expressions hev pre e.operands).bind (leaves_expressions hev hends _) fun es r hleaves => ?_
    cases r with
    | ok vs =>
      exact courses_finish hev hends (List.mem_append_left _ henter)
        ((hleaves vs rfl).imp fun _ _ => List.mem_append_right _)
    | error v => exact courses_pure _

theorem courses_node {pre : List Event} {nd : Node} (henter : .enter nd s ∈ pre) :
    Courses pre s (nd.parts.flatMap Node.activation) (node ev s nd) := by
  cases nd with
  | program p => exact (courses_statements hev pre p.statements .null).before fun _ _ => courses_pure _
  | block b => exact courses_statements hev pre b.statements .null
  | stmt st => exact courses_stmt hev pre st
  | expr e => exact courses_expr hev hends henter

end

/-- An evaluation begins by entering its node and ends by leaving it. -/
theorem ends_evaluate : ∀ (n : Nat) (nd : Node) (s : Nat) (w : World), s < w.store.size →
    (evaluate n nd s).Gives w fun es v _ => ∃ mid, es = .enter nd s :: (mid ++ [.leave nd s v])
  | 0, _, _, _, _ => gives_overflow
  | n + 1, nd, s, w, hw => by
    refine (gives_emit (D := fun es _ w₁ => es = [.enter nd s] ∧ w₁.store = w.store) ⟨rfl, rfl⟩).bind ?_
    rintro _ _ w₁ ⟨rfl, hstore⟩
    refine (framed_node (framed_evaluate n) s nd w₁ (hstore ▸ hw)).bind fun mid v w₂ _ => ?_
    refine (gives_emit (D := fun es _ _ => es = [.leave nd s v]) rfl).bind ?_
    rintro _ _ w₃ rfl
    exact gives_pure ⟨mid, by simp⟩

/-- **Every evaluation goes over its activation in source order.** -/
theorem courses_evaluate : ∀ (n : Nat) (pre : List Event) (nd : Node) (s : Nat),
    Courses pre s nd.activation (evaluate n nd s)
  | 0, _, _, _ => fun _ _ => gives_overflow
  | n + 1, pre, nd, s => by
    rw [nd.activation_eq]
    refine (courses_enter nd).bind (Q := fun es _ => es = [.enter nd s]) (fun _ _ => gives_emit rfl) ?_
    rintro es _ rfl
    have henter : Event.enter nd s ∈ pre ++ [.enter nd s] := List.mem_append_right _ List.mem_cons_self
    refine (courses_node (courses_evaluate n) (ends_evaluate n) henter).before fun _ v => ?_
    exact (courses_leave nd v).before fun _ _ => courses_pure v

end Eval

/-! ## Debug listings -/

/-- What is shown of an event: the node that is entered, or the line that is printed. -/
def Event.shown? : Event → Option (Node ⊕ String)
  | .enter nd _ => some (.inl nd)
  | .print line => some (.inr line)
  | _ => none

theorem printed_cons (line : String) (lines : List String) :
    printed (line :: lines) = line ++ "\n" ++ printed lines := by
  rw [printed, List.map_cons, String.join_cons]
  rfl

namespace World

variable (w : World)

/-- The nodes entered and the lines printed, in the order in which that happened. -/
def listing : List (Node ⊕ String) := w.events.filterMap Event.shown?

theorem entered_listing : w.listing.filterMap Sum.getLeft? = w.events.filterMap Event.entered? := by
  rw [listing, List.filterMap_filterMap]
  congr 1
  funext e
  cases e <;> rfl

theorem output_plain : w.output false = printed (w.listing.filterMap Sum.getRight?) := by
  unfold output listing
  induction w.events with
  | nil => rfl
  | cons e es ih =>
    rw [List.map_cons, String.join_cons, ih]
    cases e with
    | print line => exact (printed_cons _ _).symm
    | _ => exact String.empty_append

theorem output_debug :
    w.output true = printed (w.listing.map (Sum.elim (fun nd => "Evaluating: " ++ nd.className) id)) := by
  unfold output listing
  induction w.events with
  | nil => rfl
  | cons e es ih =>
    rw [List.map_cons, String.join_cons, ih]
    cases e with
    | enter | print => exact (printed_cons _ _).symm
    | _ => exact String.empty_append

end World

/-- Traces change nothing but what is shown. -/
theorem Session.submit_debug (session : Session) (nesting : Nat) (source : String) :
    (session.submit ⟨true, nesting⟩ source).verdict = (session.submit ⟨false, nesting⟩ source).verdict ∧
      (session.submit ⟨true, nesting⟩ source).session = (session.submit ⟨false, nesting⟩ source).session := by
  by_cases h : (parse source).errors = []
  · rw [submit_of_no_errors _ _ h, submit_of_no_errors _ _ h]
    exact ⟨rfl, rfl⟩
  · rw [submit_of_errors _ _ h, submit_of_errors _ _ h]
    exact ⟨rfl, rfl⟩

namespace Eval

open Event

/-- **Evaluation goes in source order.**  Of an evaluation that ends, the nodes entered in its own scope are its node
first and then others of the tree in the order of a walk, each at most once and none inside a function literal.  Where
else something is entered, the scope has been opened meanwhile, and the nodes entered in it are in this way those of the
body of a function to which the callee of a call has been evaluated.  A debug listing has a line for every node entered, in this
order, between the lines that are printed in any case; and to a session it makes no difference. -/
theorem evaluates_in_source_order (n : Nat) (nd : Node) (s : Nat) (w w' : World) (v : Value) (hs : s < w.store.size)
    (hrun : (evaluate n nd s).run w = (some v, w')) :
    Runs nd (entered s w'.events) ∧
    (∀ t : Nat, t ≠ s → entered t w'.events ≠ [] →
      w.store.size ≤ t ∧ ∃ body, Called body w'.events ∧ Runs (.block body) (entered t w'.events)) ∧
    (∃ listing : List (Node ⊕ String), listing.filterMap Sum.getLeft? = w'.events.filterMap entered? ∧
      w'.output false = printed (listing.filterMap Sum.getRight?) ∧
      w'.output true = printed (listing.map (Sum.elim (fun nd => "Evaluating: " ++ nd.className) id))) ∧
    ∀ (session : Session) (nesting : Nat) (source : String),
      (session.submit ⟨true, nesting⟩ source).verdict = (session.submit ⟨false, nesting⟩ source).verdict ∧
        (session.submit ⟨true, nesting⟩ source).session = (session.submit ⟨false, nesting⟩ source).session := by
  have hgives := (courses_evaluate n [] nd s { w with log := [] } hs).and (ends_evaluate n nd s _ hs)
  obtain ⟨hcourse, mid, hmid⟩ := hgives.of_run hrun
  refine ⟨⟨?_, hcourse.order.trans nd.activation_sublist, hcourse.order⟩, fun t ht hne => ?_,
    ⟨w'.listing, w'.entered_listing, w'.output_plain, w'.output_debug⟩, Session.submit_debug⟩
  · rw [hmid]
    simp [entered, scope?, entered?]
  · have hnew : w.store.size ≤ t := by
      by_contra hold
      exact hne (hcourse.entered_eq_nil ht (.inl (Nat.lt_of_not_le hold)))
    exact ⟨hnew, hcourse.calls t hnew hne⟩

/-- A function that prints is called twice between operands; the second call is in the third scope. -/
theorem evaluates_in_source_order_calls :
    ∃ (nd : Node) (w w' : World) (v : Value),
      nd = .program (parse "let f = fn(x) \x7b puts(x); x + 1 \x7d; f(1) + f(2)").program ∧
      (evaluate 30 nd 0).run w = (some v, w') ∧ w'.output false = "1\n2\n" ∧ Runs nd (entered 0 w'.events) ∧
      (entered 2 w'.events).map Node.className = ["BlockStatement", "ExpressionStatement", "CallExpression",
        "Identifier", "Identifier", "ExpressionStatement", "InfixExpression", "Identifier", "IntegerLiteral"] ∧
      ∃ body, Called body w'.events ∧ Runs (.block body) (entered 2 w'.events) := by
  have hfacts : ∃ nd run, nd = .program (parse "let f = fn(x) \x7b puts(x); x + 1 \x7d; f(1) + f(2)").program ∧
      (evaluate 30 nd 0).run Session.start.world = run ∧ run.1.isSome = true ∧ run.2.output false = "1\n2\n" ∧
      (entered 2 run.2.events).map Node.className = ["BlockStatement", "ExpressionStatement", "CallExpression",
        "Identifier", "Identifier", "ExpressionStatement", "InfixExpression", "Identifier", "IntegerLiteral"] :=
    ⟨_, _, rfl, rfl, by decide +kernel, by decide +kernel, by decide +kernel⟩
  obtain ⟨nd, ⟨result, w'⟩, hnd, hrun, hsome, houtput, hclasses⟩ := hfacts
  obtain ⟨v, rfl⟩ := Option.isSome_iff_exists.1 hsome
  have hs : 0 < Session.start.world.store.size := by decide +kernel
  obtain ⟨hruns, hcalls, -, -⟩ := evaluates_in_source_order 30 nd 0 Session.start.world w' v hs hrun
  have hne : entered 2 w'.events ≠ [] := fun h => by
    rw [h] at hclasses
    cases hclasses
  exact ⟨nd, _, w', v, hnd, hrun, houtput, hruns, hclasses, (hcalls 2 (by decide) hne).2⟩

end Eval

end Monkey
