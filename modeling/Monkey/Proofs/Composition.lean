import Monkey.Proofs.Concatenation
import Monkey.Proofs.Simulation
/-!
# Submissions compose

Two sources submitted one after the other do what they do as one submission, the second on the lines below the first,
provided that the first ends on a semicolon and runs through.  The runs differ in the places of the second program's
nodes, so they are compared with places left out: each is beside a run without places, and that is the same for both.
-/
namespace Monkey

/-! ## Equal but for places -/

/-- Every place is the first. -/
def Renaming.unplaced : Renaming := .placing fun _ => .start

/-- The value without the places in its functions. -/
def Value.unplaced (v : Value) : Value := v.rename .unplaced

theorem Value.isSignal_unplaced (v : Value) : v.unplaced.isSignal = v.isSignal :=
  v.isSignal_rename .unplaced

theorem Value.unwrap_unplaced (v : Value) : v.unwrap.unplaced = v.unplaced.unwrap :=
  (v.unwrap_rename .unplaced).symm

/-- Everything is allowed. -/
def Regime.free : Regime where
  shown _ := true
  live _ _ := True
  admits _ _ _ := True
  allows _ _ := True
  live_mono _ _ := trivial
  live_old := live_old_of_all
  admits_mono _ _ := trivial
  admits_live _ := trivial
  admits_shown _ := rfl
  admits_child _ _ _ := trivial
  allows_mono _ _ := trivial
  allows_plain _ _ _ := trivial
  allows_made _ _ _ _ _ := trivial
  allows_fn _ := trivial
  live_of_allows _ := trivial
  admits_call _ _ := trivial

theorem Regime.visible_free (entries : List (String × Value)) : free.visible entries = entries :=
  List.filter_eq_self.2 fun _ _ => rfl

theorem Regime.good_free (w : World) (v : Value) : free.Good w v := fun _ _ => trivial

/-- The scopes without the places in their values. -/
def Store.unplaced (st : Store) : Store :=
  ⟨st.scopes.map fun scope => ⟨scope.outer, scope.bindings.map fun b => (b.1, b.2.unplaced)⟩⟩

@[simp] theorem Store.size_unplaced (st : Store) : st.unplaced.size = st.size := Array.size_map

@[simp] theorem Store.enclosing_unplaced (st : Store) (t : ScopeId) : st.unplaced.enclosing t = st.enclosing t := by
  refine enclosing_congr t fun u _ => ?_
  unfold outer? unplaced
  rw [Array.getElem?_map]
  cases st.scopes[u]? <;> rfl

@[simp] theorem Store.bindings_unplaced (st : Store) (t : ScopeId) :
    st.unplaced.bindings t = (st.bindings t).map fun b => (b.1, b.2.unplaced) := by
  unfold bindings unplaced
  rw [Array.getElem?_map]
  cases st.scopes[t]? <;> rfl

theorem Store.ext_of {st st' : Store} (hsize : st.size = st'.size) (henclosing : ∀ t, st.enclosing t = st'.enclosing t)
    (hbindings : ∀ t, st.bindings t = st'.bindings t) : st = st' := by
  have hscopes : st.scopes = st'.scopes := Array.ext_getElem? fun t => by
    rcases Nat.lt_or_ge t st.size with ht | ht
    · exact (scope_eq ht (hsize ▸ ht) (henclosing t).symm (hbindings t).symm).symm
    · rw [Array.getElem?_eq_none ht, Array.getElem?_eq_none (show st'.size ≤ t from hsize ▸ ht)]
  cases st
  exact congrArg Store.mk hscopes

/-- What a terminal shows of a log. -/
def World.shown (debug : Bool) (log : List Event) : String := String.join (log.reverse.map (·.text debug))

theorem World.shown_append (debug : Bool) (later earlier : List Event) :
    shown debug (later ++ earlier) = shown debug earlier ++ shown debug later := by
  unfold shown
  rw [List.reverse_append, List.map_append, String.join_append]

theorem World.shown_enter (nd : Node) (s : ScopeId) : shown false [.enter nd s] = "" := rfl

/-- The worlds are equal but for places, and so are the events since these logs: both are like one world without any. -/
def World.SameBut (since since' : List Event) (w w' : World) : Prop :=
  ∃ u, Likeness.Alike ⟨.free, .unplaced, since, []⟩ w u ∧ Likeness.Alike ⟨.free, .unplaced, since', []⟩ w' u

namespace World

variable {w w' : World} {since since' : List Event}

theorem sameBut_refl (w : World) : w.SameBut w.log w.log w := by
  have h : Likeness.Alike ⟨.free, .unplaced, w.log, []⟩ w ⟨w.store.unplaced, w.fresh, []⟩ :=
    { outward := fun _ _ _ _ => trivial
      bound := fun _ _ _ _ => Regime.good_free _ _
      fresh := fun _ => rfl
      size := fun _ => by rw [Store.size_unplaced]; rfl
      enclosing := fun t => (Store.enclosing_unplaced _ t).trans (List.map_id _).symm
      visible := fun t => by
        rw [Regime.visible_free, Regime.visible_free]
        exact Store.bindings_unplaced _ t
      log := ⟨[], rfl, rfl, nofun⟩ }
  exact ⟨_, h, h⟩

theorem SameBut.relog (h : w.SameBut since since' w') (log log' : List Event) :
    World.SameBut log log' { w with log := log } { w' with log := log' } := by
  obtain ⟨u, hw, hw'⟩ := h
  exact ⟨{ u with log := [] }, hw.relog log [], hw'.relog log' []⟩

/-- The scopes of a world that is like one without places, without the places. -/
theorem store_of_alike {u : World} (h : Likeness.Alike ⟨.free, .unplaced, since, []⟩ w u) :
    u.store = w.store.unplaced := by
  refine Store.ext_of ?_ (fun t => ?_) fun t => ?_
  · rw [Store.size_unplaced]
    exact (h.size 0).symm
  · rw [Store.enclosing_unplaced]
    exact (h.enclosing t).trans (List.map_id _)
  · have hvisible := h.visible t
    rw [Regime.visible_free, Regime.visible_free] at hvisible
    exact hvisible.trans (Store.bindings_unplaced _ t).symm

theorem SameBut.store (h : w.SameBut since since' w') : w.store.unplaced = w'.store.unplaced := by
  obtain ⟨u, hw, hw'⟩ := h
  rw [← store_of_alike hw, store_of_alike hw']

theorem SameBut.fresh (h : w.SameBut since since' w') : w.fresh = w'.fresh := by
  obtain ⟨u, hw, hw'⟩ := h
  exact (hw.fresh 0).trans (hw'.fresh 0).symm

/-- What has been shown since is the same. -/
theorem SameBut.shown (h : w.SameBut since since' w') (debug : Bool) : ∃ text : String,
    shown debug w.log = shown debug since ++ text ∧ shown debug w'.log = shown debug since' ++ text := by
  obtain ⟨u, hw, hw'⟩ := h
  obtain ⟨es, hlog, hu, -⟩ := hw.log
  obtain ⟨es', hlog', hu', -⟩ := hw'.log
  have hes : es.map (Event.rename .unplaced) = es'.map (Event.rename .unplaced) := by simpa using hu.symm.trans hu'
  have htexts : es.map (·.text debug) = es'.map (·.text debug) := by
    rw [← Event.texts_rename .unplaced, hes, Event.texts_rename]
  have hshown : World.shown debug es = World.shown debug es' := by
    unfold World.shown
    rw [List.map_reverse, htexts, List.map_reverse]
  exact ⟨World.shown debug es, by rw [hlog, shown_append], by rw [hlog', shown_append, hshown]⟩

end World

/-! ## Endings -/

/-- The endings are equal but for places. -/
inductive Ending.SameBut (since since' : List Event) : Ending Value → Ending Value → Prop
  | value {v v' : Value} {w w' : World} (hv : v.unplaced = v'.unplaced) (hw : w.SameBut since since' w') :
      SameBut since since' (.value v w) (.value v' w')
  | overflow {w w' : World} (hw : w.SameBut since since' w') : SameBut since since' (.overflow w) (.overflow w')

theorem Ending.SameBut.of_value {v : Value} {w : World} {since since' : List Event} {x : Ending Value}
    (h : Ending.SameBut since since' (.value v w) x) :
    ∃ v' w', v.unplaced = v'.unplaced ∧ w.SameBut since since' w' ∧ x = .value v' w' := by
  cases h with
  | value hv hw => exact ⟨_, _, hv, hw, rfl⟩

theorem Ending.SameBut.world {since since' : List Event} {x y : Ending Value} (h : x.SameBut since since' y) :
    x.world.SameBut since since' y.world := by
  cases h with
  | value hv hw => exact hw
  | overflow hw => exact hw

namespace Eval

/-- Statements that are equal but for places end alike. -/
theorem statements_sameBut {n : Nat} {s : ScopeId} {last last' : Value} {ss ss' : List Stmt} {since since' : List Event}
    {w w' : World} (hlast : last.unplaced = last'.unplaced)
    (hss : ss.map (Stmt.relocate fun _ => .start) = ss'.map (Stmt.relocate fun _ => .start))
    (hw : w.SameBut since since' w') :
    Ending.SameBut since since' (statements (evaluate n) s last ss w) (statements (evaluate n) s last' ss' w') := by
  obtain ⟨u, hu, hu'⟩ := hw
  have htracks (last : Value) (ss : List Stmt) (since : List Event) (w : World) :
      Tracks ⟨.free, .unplaced, since, []⟩ w (Likeness.Same ⟨.free, .unplaced, since, []⟩)
        (statements (evaluate n) s last ss)
        (statements (evaluate n) s last.unplaced (ss.map (Stmt.relocate fun _ => .start))) :=
    tracks_statements (tracks_evaluate n) (fun _ _ => trivial) ⟨rfl, Regime.good_free _ _⟩
  have hends := htracks last ss since w u hu
  have hends' := htracks last' ss' since' w' u hu'
  rw [← hlast, ← hss] at hends'
  generalize statements (evaluate n) s last ss w = x, statements (evaluate n) s last' ss' w' = x',
    statements (evaluate n) s last.unplaced _ u = y at hends hends'
  cases hends with
  | value older alike related =>
    cases hends' with
    | value older' alike' related' => exact .value (related.1.symm.trans related'.1) ⟨_, alike, alike'⟩
  | overflow older alike =>
    cases hends' with
    | overflow older' alike' => exact .overflow ⟨_, alike, alike'⟩

/-! ## Programs in parts -/

/-- Statements behind others that run through start where those have ended. -/
theorem statements_append {ev : Below} {s : ScopeId} {v : Value} {w' : World} (ts : List Stmt) (hv : v.isSignal = false) :
    ∀ {ss : List Stmt} {last : Value} {w : World}, statements ev s last ss w = .value v w' →
      statements ev s last (ss ++ ts) w = statements ev s v ts w'
  | [], last, w, h => by
    cases h
    rfl
  | st :: ss, last, w, h => by
    change andThen (ev (.stmt st) s) _ w = _ at h
    show andThen (ev (.stmt st) s) _ w = _
    unfold andThen at h ⊢
    cases hst : ev (.stmt st) s w with
    | overflow u => rw [hst] at h; cases h
    | value a u =>
      rw [hst] at h
      cases hsignal : a.isSignal with
      | true =>
        simp only [hsignal, if_true] at h
        cases h
        rw [hsignal] at hv
        cases hv
      | false =>
        simp only [hsignal] at h ⊢
        exact statements_append ts hv h

/-- The value before a statement does not matter. -/
theorem statements_of_ne_nil {ev : Below} {s : ScopeId} {ss : List Stmt} (h : ss ≠ []) (last last' : Value) :
    statements ev s last' ss = statements ev s last ss := by
  cases ss with
  | nil => exact absurd rfl h
  | cons st ss => rfl

/-- How the run of a program ends, told from the end of its statements. -/
def close (p : Program) (s : ScopeId) : Ending Value → Option Value × World
  | .value v w => (some v.unwrap, { w with log := .leave (.program p) s v.unwrap :: w.log })
  | .overflow w => (none, w)

section

variable (p : Program) (s : ScopeId) (x : Ending Value)

@[simp] theorem store_close : (close p s x).2.store = x.world.store := by cases x <;> rfl

@[simp] theorem fresh_close : (close p s x).2.fresh = x.world.fresh := by cases x <;> rfl

@[simp] theorem output_close (debug : Bool) : (close p s x).2.output debug = World.shown debug x.world.log := by
  cases x with
  | value v w =>
    show World.shown debug ([.leave _ _ _] ++ w.log) = _
    rw [World.shown_append]
    exact String.append_empty
  | overflow w => rfl

end

theorem result_close {since since' : List Event} {x y : Ending Value} (h : x.SameBut since since' y) (p p' : Program)
    (s s' : ScopeId) : (close p s x).1.map Value.unplaced = (close p' s' y).1.map Value.unplaced := by
  cases h with
  | value hv hw =>
    show some (Value.unplaced _) = some (Value.unplaced _)
    rw [Value.unwrap_unplaced, Value.unwrap_unplaced, hv]
  | overflow hw => rfl

theorem run_program (n : Nat) (p : Program) (s : ScopeId) (w : World) :
    (evaluate (n + 1) (.program p) s).run w =
      close p s (statements (evaluate n) s .null p.statements { w with log := [.enter (.program p) s] }) := by
  have h : evaluate (n + 1) (.program p) s { w with log := [] } =
      andThen (andThen (statements (evaluate n) s .null p.statements) fun v => pure v.unwrap)
        (fun v => emit (.leave (.program p) s v) >>= fun _ => pure v) { w with log := [.enter (.program p) s] } := rfl
  unfold run
  rw [h]
  unfold andThen
  cases statements (evaluate n) s .null p.statements { w with log := [.enter (.program p) s] } <;> rfl

/-- The program runs through: it ends, neither by a `return` outside any function nor with an error. -/
def runsThrough : Nat → Program → ScopeId → World → Bool
  | 0, _, _, _ => false
  | n + 1, p, s, w =>
    match statements (evaluate n) s .null p.statements { w with log := [.enter (.program p) s] } with
    | .value v _ => !v.isSignal
    | .overflow _ => false

theorem runsThrough_iff {n : Nat} {p : Program} {s : ScopeId} {w : World} :
    runsThrough n p s w = true ↔ ∃ m v w', n = m + 1 ∧ v.isSignal = false ∧
      statements (evaluate m) s .null p.statements { w with log := [.enter (.program p) s] } = .value v w' := by
  cases n with
  | zero => simp [runsThrough]
  | succ m =>
    simp only [runsThrough, Nat.add_right_cancel_iff]
    split
    · rename_i v w' h
      simp [h]
    · rename_i w' h
      simp [h]

/-- **Programs compose.**  A program that runs through and one behind it, wherever that stands there, do what they do one
after the other. -/
theorem run_append {n : Nat} {p₁ p₂ p : Program} {place : Pos → Pos} {s : ScopeId} {w : World}
    (hp : p.statements = p₁.statements ++ p₂.statements.map (Stmt.relocate place)) (hnil : p₂.statements ≠ [])
    (hruns : runsThrough n p₁ s w = true) :
    let first := (evaluate n (.program p₁) s).run w
    let second := (evaluate n (.program p₂) s).run first.2
    let both := (evaluate n (.program p) s).run w
    both.1.map Value.unplaced = second.1.map Value.unplaced ∧ both.2.store.unplaced = second.2.store.unplaced ∧
      both.2.fresh = second.2.fresh ∧ both.2.output false = first.2.output false ++ second.2.output false := by
  obtain ⟨m, v, w₁, rfl, hv, hfirst⟩ := runsThrough_iff.1 hruns
  -- the first program alone, and as the first part of the whole
  have hpart : Ending.SameBut [.enter (.program p₁) s] [.enter (.program p) s] (.value v w₁)
      (statements (evaluate m) s .null p₁.statements { w with log := [.enter (.program p) s] }) := by
    rw [← hfirst]
    exact statements_sameBut rfl rfl ((World.sameBut_refl w).relog _ _)
  obtain ⟨v', w₁', hv', hw₁, hpart⟩ := hpart.of_value
  -- the second program alone, and as the rest of the whole
  have hrest : Ending.SameBut [.enter (.program p₂) s] w₁'.log
      (statements (evaluate m) s .null p₂.statements { w₁ with log := [.enter (.program p₂) s] })
      (statements (evaluate m) s .null p.statements { w with log := [.enter (.program p) s] }) := by
    have hsignal : v'.isSignal = false := by
      rw [← Value.isSignal_unplaced, ← hv', Value.isSignal_unplaced, hv]
    rw [hp, statements_append _ hsignal hpart, statements_of_ne_nil hnil v]
    refine statements_sameBut hv' ?_ (hw₁.relog _ _)
    rw [List.map_map]
    exact List.map_congr_left fun st _ => (Stmt.relocate_relocate place (fun _ => .start) st).symm
  obtain ⟨text, hshown, hshown'⟩ := hw₁.shown false
  obtain ⟨text', hrestShown, hrestShown'⟩ := hrest.world.shown false
  simp only [run_program, hfirst, store_close, fresh_close, output_close, Ending.world_value]
  refine ⟨(result_close hrest p₂ p s s).symm, hrest.world.store.symm, hrest.world.fresh.symm, ?_⟩
  rw [World.shown_enter, String.empty_append] at hshown hshown' hrestShown
  rw [hrestShown', hshown', hrestShown, hshown]

end Eval

/-! ## Submissions -/

/-- The verdict without the places in a value. -/
def Verdict.unplaced : Verdict → Verdict
  | value v => value v.unplaced
  | verdict => verdict

theorem Verdict.unplaced_ofResult (v? : Option Value) : ((v?.map value).getD overflow).unplaced =
    ((v?.map Value.unplaced).map value).getD overflow := by
  cases v? <;> rfl

/-- What is shown of an end does not depend on places. -/
theorem Verdict.texts_unplaced (verdict : Verdict) : verdict.unplaced.texts = verdict.texts := by
  cases verdict with
  | value v =>
    have hrender : v.unplaced.render = v.render := v.render_rename Renaming.unplaced
    cases v <;> simp_all [unplaced, texts, Value.unplaced, Value.rename]
  | _ => rfl

namespace Session

/-- **Submissions compose.**  Let two sources parse without diagnostics, the first with a semicolon as its last token and
not ending on a backslash, the second with a statement; and let the first run through.  One after the other they end as
they do as one submission, the second on the line below the first: with the same value, with the same names bound in
every scope in the same order and to the same values, and with the same lines printed.  Only places within functions
differ. -/
theorem submit_append_line {session : Session} {settings : Settings} {s₁ s₂ : String}
    (h₁ : (parse s₁).diagnostics = []) (h₂ : (parse s₂).diagnostics = [])
    (hlast : (TokenStream.ofSource s₁).ahead.getLast?.map (·.kind) = some .semicolon) (hclosed : Closed s₁.toList)
    (hnil : (parse s₂).program.statements ≠ [])
    (hruns : Eval.runsThrough settings.nesting (parse s₁).program session.top session.world = true) :
    let first := session.submit settings s₁
    let second := first.session.submit settings s₂
    let both := session.submit settings (s₁ ++ "\n" ++ s₂)
    both.verdict.unplaced = second.verdict.unplaced ∧ both.verdict.texts = second.verdict.texts ∧
      both.session.top = second.session.top ∧ both.session.world.fresh = second.session.world.fresh ∧
      both.session.world.store.unplaced = second.session.world.store.unplaced ∧
      both.session.world.output false = first.session.world.output false ++ second.session.world.output false := by
  obtain ⟨hprogram, hdiagnostics⟩ := @parse_append_line s₁ s₂ h₁ hclosed hlast
  have hfirst := submit_accepted session settings (Parsed.errors_eq_nil h₁)
  have hsecond := Parsed.errors_eq_nil h₂
  have hboth := Parsed.errors_eq_nil (hdiagnostics.trans h₂)
  have hrun : (session.submit settings s₁).session.run settings s₂ =
      (Eval.evaluate settings.nesting (.program (parse s₂).program) session.top).run (session.run settings s₁).2 := by
    rw [hfirst]
    rfl
  obtain ⟨hresult, hstore, hfresh, houtput⟩ := Eval.run_append (w := session.world) (s := session.top) hprogram hnil hruns
  have hverdict : (session.submit settings (s₁ ++ "\n" ++ s₂)).verdict.unplaced =
      ((session.submit settings s₁).session.submit settings s₂).verdict.unplaced := by
    rw [verdict_accepted _ _ hboth, verdict_accepted _ _ hsecond, hrun, Verdict.unplaced_ofResult,
      Verdict.unplaced_ofResult]
    exact congrArg (fun v? => (v?.map Verdict.value).getD .overflow) hresult
  intro first second both
  refine ⟨hverdict, ?_, ?_⟩
  · rw [← Verdict.texts_unplaced, hverdict, Verdict.texts_unplaced]
  · simp only [first, second, both]
    rw [submit_accepted _ _ hsecond, submit_accepted _ _ hboth, hrun, hfirst]
    exact ⟨rfl, hfresh, hstore, houtput⟩

/-- A function on the first line, which reads a name that was bound before, and its call on the second. -/
theorem submit_append_line_call :
    ∃ (session : Session) (settings : Settings) (s₁ s₂ : String), session.bindings.length = 1 ∧
      let first := session.submit settings s₁
      let second := first.session.submit settings s₂
      let both := session.submit settings (s₁ ++ "\n" ++ s₂)
      second.verdict.texts = ["42"] ∧ second.session.world.output false = "2\n" ∧
        both.verdict.unplaced = second.verdict.unplaced ∧
        both.session.world.store.unplaced = second.session.world.store.unplaced ∧
        both.session.world.output false = first.session.world.output false ++ second.session.world.output false := by
  let settings : Settings := ⟨false, 30⟩
  let session := (start.submit settings "let n = 40").session
  let s₁ := "let add = fn(x) \x7b puts(x); x + n \x7d;"
  have h := @submit_append_line session settings s₁ "add(2)" (by decide +kernel) (by decide +kernel) (by decide +kernel)
    (by decide +kernel) (List.ne_nil_of_length_pos (by decide +kernel)) (by decide +kernel)
  refine ⟨session, settings, s₁, "add(2)", by decide +kernel, by decide +kernel, by decide +kernel, h.1, ?_, ?_⟩
  · exact h.2.2.2.2.1
  · exact h.2.2.2.2.2

end Session

end Monkey
