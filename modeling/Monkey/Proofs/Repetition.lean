import Monkey.Proofs.Simulation
/-!
# Calls are repeatable

A call leaves nothing behind that the same call could see: every scope from before is what it was, and what is new has
numbers that nothing from before has.  The second call therefore runs beside the first, with the numbers of all that the
first has made shifted; it prints the same and gives the same, up to that shift.

That values and scopes refer only to what there is holds in every state that runs get to (`World.Reachable`), between
two steps of an evaluation as well as between two programs.
-/
namespace Monkey

/-! ## What there is -/

/-- What is made has an identity that is there then. -/
theorem World.stands_made (w : World) {v : Value} (hv : v.identity? = some w.fresh) (htype : v.type ≠ .function) :
    (∀ i, v.identity? = some i → i < w.fresh + 1) ∧
      ∀ id params body scope, v = .fn id params body scope → scope < w.store.size :=
  ⟨fun i hi => (by rw [hv] at hi; cases hi; exact Nat.lt_succ_self _),
    fun _ _ _ _ heq => (by subst heq; exact absurd rfl htype)⟩

/-- Every value has an identity and every function a scope that is there already. -/
def Regime.standing : Regime where
  shown _ := true
  live n t := t < n
  admits w _ s := s < w.store.size
  allows w v := (∀ i, v.identity? = some i → i < w.fresh) ∧
    ∀ id params body scope, v = .fn id params body scope → scope < w.store.size
  live_mono h ht := Nat.lt_of_lt_of_le ht h
  live_old h := (Nat.lt_succ_iff_lt_or_eq.1 h).symm
  admits_mono hw h := Nat.lt_of_lt_of_le h hw.size
  admits_live h := h
  admits_shown _ := rfl
  admits_child h _ _ := h
  allows_mono hw h := ⟨fun i hi => Nat.lt_of_lt_of_le (h.1 i hi) hw.fresh,
    fun id params body scope heq => Nat.lt_of_lt_of_le (h.2 id params body scope heq) hw.size⟩
  allows_plain _ _ hv := ⟨fun _ hi => (by rw [hv] at hi; cases hi), fun _ _ _ _ heq => (by subst heq; cases hv)⟩
  allows_made w _ hv htype _ := w.stands_made hv htype
  allows_fn h := ⟨fun _ hi => (by cases hi; exact Nat.lt_succ_self _), fun _ _ _ _ heq => (by cases heq; exact h)⟩
  live_of_allows h := h.2 _ _ _ _ rfl
  admits_call _ _ := by
    rw [Store.size_push]
    exact Nat.lt_succ_self _

namespace World

/-- The states that runs get to, each with values that are at hand there.  A session starts with nothing; nodes are
evaluated in scopes that exist, which may also end for want of room; what is bound or held is at hand; objects are made of
values at hand; and scopes are opened and names bound, as they are in the middle of an evaluation. -/
inductive Reachable : World → List Value → Prop
  | start : Reachable .empty []
  | evaluated {w w' : World} {hand : List Value} {n : Nat} {nd : Node} {s : ScopeId} {v : Value} (h : Reachable w hand)
      (hs : s < w.store.size) (hrun : Eval.evaluate n nd s w = .value v w') : Reachable w' (v :: hand)
  | exhausted {w w' : World} {hand : List Value} {n : Nat} {nd : Node} {s : ScopeId} (h : Reachable w hand)
      (hs : s < w.store.size) (hrun : Eval.evaluate n nd s w = .overflow w') : Reachable w' hand
  | bound {w : World} {hand : List Value} {s : ScopeId} {name : String} {v : Value} (h : Reachable w hand)
      (hv : (name, v) ∈ w.store.bindings s) : Reachable w (v :: hand)
  | held {w : World} {hand : List Value} {u v : Value} (h : Reachable w hand) (hv : v ∈ hand) (hu : u ∈ v.held) :
      Reachable w (u :: hand)
  | plain {w : World} {hand : List Value} {v : Value} (h : Reachable w hand) (hv : v.identity? = none) :
      Reachable w (v :: hand)
  | made {w : World} {hand : List Value} {v : Value} (h : Reachable w hand) (hv : v.identity? = some w.fresh)
      (htype : v.type ≠ .function) (hheld : ∀ u ∈ v.held, u ∈ hand) :
      Reachable { w with fresh := w.fresh + 1 } (v :: hand)
  | function {w : World} {hand : List Value} {s : ScopeId} (h : Reachable w hand) (hs : s < w.store.size)
      (params : List Ident) (body : Block) :
      Reachable { w with fresh := w.fresh + 1 } (.fn w.fresh params body s :: hand)
  | bind {w : World} {hand : List Value} {v : Value} (h : Reachable w hand) (hv : v ∈ hand) (s : ScopeId)
      (name : String) : Reachable { w with store := w.store.set s name v, log := .bind s name v :: w.log } hand
  | opened {w : World} {hand : List Value} {outer : Option ScopeId} (h : Reachable w hand)
      (houter : ∀ s ∈ outer, s < w.store.size) : Reachable { w with store := w.store.push outer } hand
  | logged {w : World} {hand : List Value} (h : Reachable w hand) (log : List Event) :
      Reachable { w with log := log } hand

/-- In a state that runs get to, everything bound or at hand refers to what there is. -/
theorem Reachable.standing {w : World} {hand : List Value} (h : w.Reachable hand) :
    Regime.standing.Kept w ∧ ∀ v ∈ hand, Regime.standing.Good w v := by
  have hmono {w w' : World} {hand : List Value} (hw : w.Older w') (h : ∀ v ∈ hand, Regime.standing.Good w v) :
      ∀ v ∈ hand, Regime.standing.Good w' v := fun v hv => (h v hv).mono hw
  have hcons {w : World} {hand : List Value} {u : Value} (hu : Regime.standing.Good w u)
      (h : ∀ v ∈ hand, Regime.standing.Good w v) : ∀ v ∈ u :: hand, Regime.standing.Good w v :=
    List.forall_mem_cons.2 ⟨hu, h⟩
  induction h with
  | start => exact ⟨⟨fun t ht => absurd ht (Nat.not_lt_zero t), fun t ht => absurd ht (Nat.not_lt_zero t)⟩, nofun⟩
  | @evaluated w w' hand n nd s v h hs hrun ih =>
    have hends : Regime.standing.Ends w (Eval.evaluate n nd s w) := Regime.ends_evaluate ih.1 hs n
    rw [hrun] at hends
    cases hends with
    | value older kept log fits good => exact ⟨kept, hcons good (hmono older ih.2)⟩
  | @exhausted w w' hand n nd s h hs hrun ih =>
    have hends : Regime.standing.Ends w (Eval.evaluate n nd s w) := Regime.ends_evaluate ih.1 hs n
    rw [hrun] at hends
    cases hends with
    | overflow older kept log fits => exact ⟨kept, hmono older ih.2⟩
  | @bound w hand s name v h hv ih =>
    refine ⟨ih.1, hcons ?_ ih.2⟩
    exact ih.1.bound s (w.store.lt_size_of_mem_bindings hv) (name, v) (List.mem_filter.2 ⟨hv, rfl⟩)
  | held h hv hu ih => exact ⟨ih.1, hcons ((ih.2 _ hv).held hu) ih.2⟩
  | plain h hv ih => exact ⟨ih.1, hcons (Regime.good_plain hv) ih.2⟩
  | @made w hand v h hv htype hheld ih =>
    have hold := World.Older.made w
    have hmade : Regime.standing.allows { w with fresh := w.fresh + 1 } v := w.stands_made hv htype
    refine ⟨ih.1.made, hcons (.of_held hmade fun u hu => ?_) (hmono hold ih.2)⟩
    exact (ih.2 u (hheld u hu)).mono hold
  | @function w hand s h hs params body ih =>
    have hfn : Regime.standing.allows { w with fresh := w.fresh + 1 } (.fn w.fresh params body s) :=
      Regime.standing.allows_fn (show Regime.standing.admits w (.expr (.fn ⟨0, 0⟩ params body)) s from hs)
    exact ⟨ih.1.made, hcons (.of_held hfn nofun) (hmono (.made w) ih.2)⟩
  | @bind w hand v h hv s name ih => exact ⟨ih.1.bind s name (ih.2 v hv), hmono (.bind w s name v) ih.2⟩
  | @opened w hand outer h houter ih => exact ⟨ih.1.push houter, hmono (.push w outer) ih.2⟩
  | @logged w hand h log ih =>
    exact ⟨ih.1.relog log, hmono ⟨Nat.le_refl _, Nat.le_refl _, fun _ _ => rfl⟩ ih.2⟩

theorem reachable_start : Session.start.world.Reachable [] := .opened .start nofun

/-- Whatever is submitted to a session leads from such a state to such a state. -/
theorem Reachable.submit {session : Session} {hand : List Value} (h : session.world.Reachable hand)
    (htop : session.top < session.world.store.size) (settings : Settings) (source : String) :
    ∃ hand', (session.submit settings source).session.world.Reachable hand' := by
  unfold Session.submit Eval.run
  dsimp only
  split
  · split
    · rename_i v w' hrun
      exact ⟨_, (h.logged []).evaluated htop hrun⟩
    · rename_i w' hrun
      exact ⟨hand, (h.logged []).exhausted htop hrun⟩
  · exact ⟨hand, h⟩

end World

/-! ## The second call -/

/-- Numbers from a bound on are moved up. -/
def Renaming.lift (m d : Nat) (i : Nat) : Nat := if i < m then i else i + d

theorem Renaming.lift_injective (m d : Nat) : Function.Injective (lift m d) := fun i j h => by
  unfold lift at h
  split at h <;> split at h <;> omega

theorem Renaming.lift_of_lt {m d i : Nat} (h : i < m) : lift m d i = i := if_pos h

theorem Renaming.lift_add {m m' : Nat} (h : m ≤ m') (k : Nat) : lift m (m' - m) (m + k) = m' + k := by
  rw [lift, if_neg (by omega)]
  omega

theorem Renaming.le_lift {m m' i : Nat} (hi : m ≤ i) : m' ≤ lift m (m' - m) i := by
  rw [lift, if_neg (by omega)]
  omega

/-- What is made after the first world gets the numbers of what is made after the second. -/
def Renaming.between (w w' : World) : Renaming where
  identity := lift w.fresh (w'.fresh - w.fresh)
  scope := lift w.store.size (w'.store.size - w.store.size)
  place := id
  identity_injective := lift_injective _ _
  scope_injective := lift_injective _ _

/-- What there is keeps its numbers. -/
theorem Regime.Good.rename_between {w : World} {v : Value} (h : standing.Good w v) (w' : World) :
    v.rename (.between w w') = v := by
  refine Value.rename_of_fixed rfl v fun u hu => ⟨fun i hi => ?_, fun id params body scope heq => ?_⟩
  · exact Renaming.lift_of_lt ((h u hu).1 i hi)
  · exact Renaming.lift_of_lt ((h u hu).2 id params body scope heq)

/-- A world and a later one in which every scope of the first is what it was. -/
theorem Regime.Kept.alike_between {w w' : World} (h : standing.Kept w) (hold : w.Older w')
    (hscopes : ∀ t : Nat, t < w.store.size → w'.store.scopes[t]? = w.store.scopes[t]?) :
    Likeness.Alike ⟨standing, .between w w', w.log, w'.log⟩ w w' := by
  -- a scope that the first world has not is moved behind all that the second has
  have hbehind {t : Nat} (ht : ¬ t < w.store.size) : w'.store.size ≤ (Renaming.between w w').scope t :=
    Renaming.le_lift (Nat.not_lt.1 ht)
  refine ⟨h, Renaming.lift_add hold.fresh, Renaming.lift_add hold.size, fun t => ?_, fun t => ?_, [], rfl, rfl, nofun⟩
  · by_cases ht : t < w.store.size
    · have hmap : (w.store.enclosing t).map (Renaming.between w w').scope = w.store.enclosing t :=
        (List.map_congr_left fun u hu => Renaming.lift_of_lt (h.outward t ht u hu)).trans (List.map_id _)
      rw [hmap, show (Renaming.between w w').scope t = t from Renaming.lift_of_lt ht]
      exact hold.enclosing t ht
    · rw [Store.enclosing_of_size_le _ (Nat.not_lt.1 ht), Store.enclosing_of_size_le _ (hbehind ht)]
      rfl
  · by_cases ht : t < w.store.size
    · have hmap : ((standing.visible (w.store.bindings t)).map fun b => (b.1, b.2.rename (.between w w'))) =
          standing.visible (w.store.bindings t) :=
        (List.map_congr_left fun b hb => congrArg (b.1, ·) ((h.bound t ht b hb).rename_between w')).trans (List.map_id _)
      have hbindings : w'.store.bindings t = w.store.bindings t := by
        unfold Store.bindings
        rw [hscopes t ht]
      rw [hmap, show (Renaming.between w w').scope t = t from Renaming.lift_of_lt ht, hbindings]
    · rw [Store.bindings_of_size_le _ (Nat.not_lt.1 ht), Store.bindings_of_size_le _ (hbehind ht)]
      rfl

namespace Eval

/-- **Calls are repeatable.**  If a call of values at hand gives a result, the same call made at once gives one as well.
It prints the same, in a debug listing too; and its result is that of the first call, with other numbers for what was
made in the calls: of the same type, with the same rendering, and the same error if it is one. -/
theorem call_repeats {w w₁ : World} {hand : List Value} (hw : w.Reachable hand) {f : Value} {args : List Value}
    (hf : f ∈ hand) (hargs : ∀ a ∈ args, a ∈ hand) {n : Nat} {v : Value}
    (hrun : (apply (evaluate n) f args).run w = (some v, w₁)) :
    ∃ v' w₂, (apply (evaluate n) f args).run w₁ = (some v', w₂) ∧
      (∀ debug, w₂.output debug = w₁.output debug) ∧
      v'.type = v.type ∧ v'.render = v.render ∧
      (∀ id fault, v = .error id fault → ∃ id', v' = .error id' fault) ∧
      ∃ r : Renaming, r.place = id ∧ (∀ i : Nat, i < w.fresh → r.identity i = i) ∧
        (∀ t : Nat, t < w.store.size → r.scope t = t) ∧ v' = v.rename r := by
  have hfirst := value_of_run hrun
  obtain ⟨hkept, hgood⟩ := (hw.logged []).standing
  have hold : World.Older { w with log := [] } { w₁ with log := [] } := by
    have hends := Regime.ends_apply hkept (hgood f hf) (fun a ha => hgood a (hargs a ha)) n
    rw [hfirst] at hends
    cases hends with
    | value older => exact ⟨older.fresh, older.size, older.enclosing⟩
  have hscopes : ∀ t : Nat, t < w.store.size → w₁.store.scopes[t]? = w.store.scopes[t]? := by
    obtain ⟨es, -, hes⟩ := framed_apply (framed_evaluate n) f args _ (Nat.zero_le _) v w₁ hfirst
    exact fun t ht => hes.scope_eq ht fun _ h => h.elim
  have hsame {u : Value} (hu : u ∈ hand) : u.rename (.between w w₁) = u := (hgood u hu).rename_between w₁
  have hargs' : args = args.map (Value.rename (.between w w₁)) :=
    ((List.map_congr_left fun a ha => hsame (hargs a ha)).trans (List.map_id _)).symm
  have hends := tracks_apply (tracks_evaluate n) ⟨(hsame hf).symm, hgood f hf⟩
    ⟨hargs', fun a ha => hgood a (hargs a ha)⟩ _ (hkept.alike_between hold hscopes)
  rw [hfirst] at hends
  generalize hsecond : apply (evaluate n) f args { w₁ with log := [] } = second at hends
  cases hends with
  | @value _ v' _ w₂ older alike related =>
    obtain ⟨rfl, -⟩ := related
    refine ⟨v.rename (.between w w₁), w₂, ?_, fun debug => ?_, Value.type_rename _ v, Value.render_rename _ v, ?_,
      .between w w₁, rfl, fun i hi => Renaming.lift_of_lt hi, fun t ht => Renaming.lift_of_lt ht, rfl⟩
    · rw [run, hsecond]
      rfl
    · obtain ⟨es, hlog, hlog', -⟩ := alike.log
      simp only [World.output, World.events, hlog, hlog', List.append_nil, List.map_reverse, Event.texts_rename]
    · rintro id fault rfl
      exact ⟨_, rfl⟩

/-- A function that prints its argument and gives it in a new array. -/
theorem call_repeats_array :
    ∃ (w w₁ w₂ : World) (f v v' : Value),
      (apply (evaluate 20) f [.int 7]).run w = (some v, w₁) ∧ (apply (evaluate 20) f [.int 7]).run w₁ = (some v', w₂) ∧
      v.render = "[7]" ∧ v'.render = v.render ∧ w₁.output false = "7\n" ∧ w₂.output false = w₁.output false := by
  have hentry (entries : List (String × Value)) (h : (entries.lookup "f").isSome = true) :
      ("f", (entries.lookup "f").getD .null) ∈ entries := by
    obtain ⟨f, hf⟩ := Option.isSome_iff_exists.1 h
    obtain ⟨l₁, l₂, heq, -⟩ := List.lookup_eq_some_iff.1 hf
    rw [hf, heq]
    simp
  obtain ⟨w, f, last, hlast, hmem, hcalls, hprints⟩ : ∃ (w : World) (f last : Value),
      evaluate 20 (.program (parse "let f = fn(x) \x7b puts(x); [x] \x7d").program) 0
        { Session.start.world with log := [] } = .value last w ∧
      ("f", f) ∈ w.store.bindings 0 ∧
      ((apply (evaluate 20) f [.int 7]).run w).1.map Value.render = some "[7]" ∧
      ((apply (evaluate 20) f [.int 7]).run w).2.output false = "7\n" := by
    have hruns : ((evaluate 20 (.program (parse "let f = fn(x) \x7b puts(x); [x] \x7d").program) 0).run
      Session.start.world).1.isSome = true := by decide +kernel
    obtain ⟨last, hlast⟩ := exists_value_of_run hruns
    exact ⟨_, _, last, hlast, hentry _ (by decide +kernel), by decide +kernel, by decide +kernel⟩
  have hw : w.Reachable [.int 7, f, last] :=
    ((World.reachable_start.logged []).evaluated (by decide) hlast).bound hmem |>.plain rfl
  obtain ⟨v, hv, hrender⟩ := Option.map_eq_some_iff.1 hcalls
  obtain ⟨v', w₂, hsecond, houtput, -, hrender', -⟩ := call_repeats hw (by simp) (by simp)
    (show (apply (evaluate 20) f [.int 7]).run w = (some v, _) from Prod.ext hv rfl)
  exact ⟨w, _, w₂, f, v, v', Prod.ext hv rfl, hsecond, hrender, hrender', hprints, houtput false⟩

end Eval

end Monkey
