import Monkey.Proofs.Simulation
/-!
# Scopes are nested as function literals are

A node that lies inside so many function literals is evaluated in a scope that has so many scopes around it, whoever has
called the function and wherever its value has been.  This is the regime of lexical scope: a function keeps the scope in
which its literal was evaluated, one literal further out than its body, and a call opens a scope inside that one.

Nodes of different sources may be equal, the places in them included.  To tell them apart the programs may be given any
other places, and what a session does is told as the run of these programs (`Session.After`).
-/
namespace Monkey

/-- A node occurs in a tree, inside so many function literals; the literals around it do not include itself. -/
inductive Node.Contains (root : Node) : Nat → Node → Prop
  | root : Contains root 0 root
  | child {k : Nat} {nd child : Node} (h : Contains root k nd) (hc : child ∈ nd.children) :
      Contains root (k + nd.literals) child

/-- The depth of a scope does not change. -/
theorem World.Older.depth_eq {w w' : World} (h : w.Older w') {s : Nat} (hs : s < w.store.size) :
    w'.store.depth s = w.store.depth s := by
  unfold Store.depth Store.chain
  rw [h.enclosing s hs]

/-- A scope that is opened in another lies one deeper. -/
theorem Store.depth_push_next {st : Store} (s : ScopeId) : (st.push (some s)).depth st.next = st.depth s + 1 := by
  unfold Store.depth Store.chain
  rw [Store.enclosing_push_next]
  rfl

/-- A node is evaluated, and a function made, in a scope that is as deep as the node lies in one of the programs. -/
def Regime.lexical (programs : List Program) : Regime where
  shown _ := true
  live _ _ := True
  admits w nd s := s < w.store.size ∧
    ∃ p ∈ programs, ∃ k, (Node.program p).Contains k nd ∧ w.store.depth s = 1 + k
  allows w v := ∀ id params body scope, v = .fn id params body scope → scope < w.store.size ∧
    ∃ p ∈ programs, ∃ k pos, (Node.program p).Contains k (.expr (.fn pos params body)) ∧ w.store.depth scope = 1 + k
  live_mono _ _ := trivial
  live_old := live_old_of_all
  admits_mono hw h := by
    obtain ⟨hs, p, hp, k, hk, hdepth⟩ := h
    exact ⟨Nat.lt_of_lt_of_le hs hw.size, p, hp, k, hk, (hw.depth_eq hs).trans hdepth⟩
  admits_live _ := trivial
  admits_shown _ := rfl
  admits_child h hliterals hc := by
    obtain ⟨hs, p, hp, k, hk, hdepth⟩ := h
    refine ⟨hs, p, hp, k, ?_, hdepth⟩
    have hchild := hk.child hc
    rwa [hliterals] at hchild
  allows_mono hw h id params body scope heq := by
    obtain ⟨hs, p, hp, k, pos, hk, hdepth⟩ := h id params body scope heq
    exact ⟨Nat.lt_of_lt_of_le hs hw.size, p, hp, k, pos, hk, (hw.depth_eq hs).trans hdepth⟩
  allows_plain _ _ hv _ _ _ _ heq := by subst heq; cases hv
  allows_made _ _ _ htype _ _ _ _ _ heq := by subst heq; exact absurd rfl htype
  allows_fn h id params body scope heq := by
    cases heq
    obtain ⟨hs, p, hp, k, hk, hdepth⟩ := h
    exact ⟨hs, p, hp, k, _, hk, hdepth⟩
  live_of_allows _ := trivial
  admits_call h hnd := by
    obtain ⟨hs, p, hp, k, pos, hk, hdepth⟩ := h _ _ _ _ rfl
    refine ⟨by rw [Store.size_push]; exact Nat.lt_succ_self _, p, hp, k + 1, hk.child hnd, ?_⟩
    rw [Store.depth_push_next, hdepth, Nat.add_assoc]

namespace Session

/-- The session after some sources, from a fresh top scope on, and the same told with other places.  A source that is
accepted parses to one of the programs, moved to their places in the source; told is the run of this program itself. -/
inductive After (place : Pos → Pos) (programs : List Program) : Session → World → Prop
  | start : After place programs .start Session.start.world
  | rejected {session : Session} {told : World} (h : After place programs session told) (settings : Settings)
      {source : String} (hsource : (parse source).errors ≠ []) :
      After place programs (session.submit settings source).session told
  | accepted {session : Session} {told : World} (h : After place programs session told) (settings : Settings)
      {source : String} {p : Program} (hp : p ∈ programs) (hsource : (parse source).errors = [])
      (hprogram : (parse source).program = p.relocate place) :
      After place programs (session.submit settings source).session
        ((Eval.evaluate settings.nesting (.program p) session.top).run told).2

end Session

/-- What a session has done is like what is told, where every scope is as deep as the literals require. -/
structure Session.Told (place : Pos → Pos) (programs : List Program) (session : Session) (told : World) : Prop where
  alike : Likeness.Alike ⟨.lexical programs, .placing place, [], []⟩ told session.world
  top : session.top < told.store.size
  depth : told.store.depth session.top = 1

theorem Session.enclosing_start (t : ScopeId) : Session.start.world.store.enclosing t = [] := by
  show (Store.empty.push none).enclosing t = []
  by_cases ht : t = Store.empty.next
  · rw [ht, Store.enclosing_push_next]
    rfl
  · rw [Store.enclosing_push_of_ne _ ht, Store.enclosing_of_size_le _ (Nat.zero_le _)]

theorem Session.told_start (place : Pos → Pos) (programs : List Program) :
    Session.start.Told place programs Session.start.world where
  alike :=
    { outward := fun t _ u hu => by rw [enclosing_start] at hu; cases hu
      bound := fun t _ b hb => by rw [bindings_start] at hb; cases hb
      fresh := fun _ => rfl
      size := fun _ => rfl
      enclosing := fun t => by rw [enclosing_start, enclosing_start]; rfl
      visible := fun t => by rw [bindings_start, bindings_start]; rfl
      log := ⟨[], rfl, rfl, nofun⟩ }
  top := by decide
  depth := by rw [Store.depth, Store.chain, enclosing_start]; rfl

theorem Session.After.told {place : Pos → Pos} {programs : List Program} {session : Session} {told : World}
    (h : After place programs session told) : session.Told place programs told := by
  induction h with
  | start => exact told_start place programs
  | rejected h settings hsource ih => rwa [submit_rejected _ _ hsource]
  | @accepted session told h settings source p hp hsource hprogram ih =>
    have hadmits : (Regime.lexical programs).admits { told with log := [] } (.program p) session.top :=
      ⟨ih.top, p, hp, 0, .root, ih.depth⟩
    obtain ⟨hold, halike, -⟩ := Eval.Tracks.run ih.alike (Eval.tracks_evaluate settings.nesting hadmits)
    rw [submit_accepted _ _ hsource, Session.run, hprogram]
    exact ⟨halike, Nat.lt_of_lt_of_le ih.top hold.size, (hold.depth_eq ih.top).trans ih.depth⟩

/-- **The depth of a scope is the nesting of what runs in it.**  The events of the last evaluation are those that are told,
at their places in the source.  Every node whose evaluation is told lies in one of the programs, inside as many function
literals as its scope has scopes around it.  And every function that is told to be the result of a node or bound to a
name, or a part of such a value, keeps a scope with as many scopes around it as there are function literals around its
own. -/
theorem Session.After.depth_eq_nesting {place : Pos → Pos} {programs : List Program} {session : Session} {told : World}
    (h : After place programs session told) :
    session.world.events = told.events.map (Event.rename (.placing place)) ∧
      (∀ (nd : Node) (s : Nat), Event.enter nd s ∈ told.events → s < session.world.store.size ∧
        ∃ p ∈ programs, ∃ k, (Node.program p).Contains k nd ∧ session.world.store.depth s = 1 + k) ∧
      ∀ e ∈ told.events, ∀ (v : Value) (id : Identity) (params : List Ident) (body : Block) (scope : Nat),
        e.value? = some v → v.HasPart (.fn id params body scope) → scope < session.world.store.size ∧
          ∃ p ∈ programs, ∃ k pos, (Node.program p).Contains k (.expr (.fn pos params body)) ∧
            session.world.store.depth scope = 1 + k := by
  have htold := h.told
  obtain ⟨es, hlog, hlog', hfits⟩ := htold.alike.log
  obtain rfl : told.log = es := hlog.trans (List.append_nil es)
  have hsize : session.world.store.size = told.store.size := (htold.alike.size 0).symm
  have hdepth (s : ScopeId) : session.world.store.depth s = told.store.depth s := by
    have henclosing := htold.alike.enclosing s
    rw [show (told.store.enclosing s).map (Renaming.placing place).scope = _ from List.map_id _] at henclosing
    unfold Store.depth Store.chain
    rw [← henclosing]
    rfl
  refine ⟨?_, fun nd s hmem => ?_, fun e hmem v id params body scope hv hpart => ?_⟩
  · rw [World.events, World.events, hlog', List.append_nil, List.map_reverse]
  · rw [hsize, hdepth]
    exact hfits _ (List.mem_reverse.1 hmem)
  · rw [hsize, hdepth]
    have hgood : (Regime.lexical programs).Good told v := by
      cases e with
      | leave nd s u => cases hv; exact (hfits _ (List.mem_reverse.1 hmem)).2
      | bind s name u => cases hv; exact hfits _ (List.mem_reverse.1 hmem)
      | _ => cases hv
    exact hgood _ hpart id params body scope rfl

/-- An adder of three numbers, one after the other: its innermost body runs four scopes deep. -/
theorem Session.After.depth_eq_nesting_adder :
    ∃ (p : Program) (session : Session) (told : World), After id [p] session told ∧
      (session.world.events.map fun
        | .enter _ s => session.world.store.depth s
        | _ => 0).max? = some 4 ∧
      session.world.events = told.events.map (Event.rename (.placing id)) ∧
        ∀ (nd : Node) (s : Nat), Event.enter nd s ∈ told.events →
          ∃ k, (Node.program p).Contains k nd ∧ session.world.store.depth s = 1 + k := by
  obtain ⟨source, haccepted, hdepth⟩ : ∃ source, (parse source).errors = [] ∧
      ((Session.start.submit ⟨false, 50⟩ source).session.world.events.map fun
        | .enter _ s => (Session.start.submit ⟨false, 50⟩ source).session.world.store.depth s
        | _ => 0).max? = some 4 :=
    ⟨"fn(a) \x7b fn(b) \x7b fn(c) \x7b a + b + c \x7d \x7d \x7d(1)(2)(3)", by decide +kernel, by decide +kernel⟩
  have hstart : After id [(parse source).program] .start Session.start.world := .start
  have hafter := hstart.accepted ⟨false, 50⟩ (List.mem_singleton_self _) haccepted (Program.relocate_id _).symm
  obtain ⟨hevents, henters, -⟩ := depth_eq_nesting hafter
  refine ⟨_, _, _, hafter, hdepth, hevents, fun nd s hmem => ?_⟩
  obtain ⟨-, p, hp, k, hk, hdepth⟩ := henters nd s hmem
  rw [List.mem_singleton.1 hp] at hk
  exact ⟨k, hk, hdepth⟩

end Monkey
