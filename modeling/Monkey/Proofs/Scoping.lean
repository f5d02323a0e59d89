import Mathlib.Data.Set.Card
import Mathlib.Logic.Relation
import Monkey.Proofs.Likeness
import Monkey.Proofs.Lookup
/-!
# Scopes after a history of operations

A history opens scopes, outermost or inside one that is there, and binds names in them.  What a name means afterwards is
read off the history alone: it is the value of the last binding of that name in the nearest scope, outward from the one
that is asked, that ever got it (`Store.After.means_nearest_binding`).  Scopes are numbered as they are opened, so a
scope lies in older ones only and the way outward ends.
-/
namespace Monkey

/-- In a dictionary that has every key once, an entry is what is found under its key. -/
theorem Dict.mem_iff_lookup {κ ν : Type} [BEq κ] [LawfulBEq κ] {dict : List (κ × ν)} (h : (dict.map (·.1)).Nodup)
    (key : κ) (value : ν) : (key, value) ∈ dict ↔ dict.lookup key = some value := by
  rw [List.lookup_eq_some_iff]
  constructor
  · intro hmem
    obtain ⟨pre, post, rfl⟩ := List.append_of_mem hmem
    refine ⟨pre, post, rfl, fun e he => bne_iff_ne.2 fun hkey => ?_⟩
    rw [List.map_append, List.nodup_append] at h
    exact h.2.2 e.1 (List.mem_map_of_mem he) key (by simp) hkey.symm
  · rintro ⟨pre, post, rfl, -⟩
    simp

namespace Store

/-- An operation on the scopes of a store. -/
inductive Step
  | new
  | child (outer : ScopeId)
  | set (s : ScopeId) (name : String) (v : Value)

/-- A store after a history of operations, each of them on a scope that was there. -/
inductive After : List Step → Store → Prop
  | start : After [] empty
  | new {past : List Step} {st : Store} (h : After past st) : After (past ++ [.new]) (st.push none)
  | child {past : List Step} {st : Store} (h : After past st) {outer : Nat} (houter : outer < st.size) :
      After (past ++ [.child outer]) (st.push (some outer))
  | set {past : List Step} {st : Store} (h : After past st) {s : Nat} (hs : s < st.size) (name : String) (v : Value) :
      After (past ++ [.set s name v]) (st.set s name v)

/-! ## Notions that the history alone decides -/

/-- The scope that an operation opens: inside which scope it lies, if inside any. -/
def Step.opens? : Step → Option (Option ScopeId)
  | new => some none
  | child outer => some (some outer)
  | set .. => none

/-- The entry that an operation makes in a scope. -/
def Step.entry? (s : ScopeId) : Step → Option (String × Value)
  | set t name v => if t = s then some (name, v) else none
  | _ => none

/-- The scopes that a history opens, each told by what it lies in. -/
def opened (past : List Step) : List (Option ScopeId) := past.filterMap Step.opens?

/-- The entries that a history makes in a scope, in their order. -/
def entries (past : List Step) (s : ScopeId) : List (String × Value) := past.filterMap (Step.entry? s)

/-- The second scope is the one right around the first. -/
def Outer (past : List Step) (s t : ScopeId) : Prop := (opened past)[s]? = some (some t)

/-- The way outward from a scope, one scope after the other until there is none around. -/
inductive Outward (past : List Step) : ScopeId → List ScopeId → Prop
  | outermost {s : ScopeId} (h : (opened past)[s]? = some none) : Outward past s [s]
  | inside {s t : ScopeId} {path : List ScopeId} (h : Outer past s t) (ht : Outward past t path) :
      Outward past s (s :: path)

/-- The name got this value in the scope, and none after it. -/
def Latest (past : List Step) (s : ScopeId) (name : String) (v : Value) : Prop :=
  ∃ before after, past = before ++ .set s name v :: after ∧ ∀ u, .set s name u ∉ after

theorem opened_concat (past : List Step) (step : Step) : opened (past ++ [step]) = opened past ++ step.opens?.toList := by
  cases h : step.opens? <;> simp [opened, h]

/-- A step opens at most one scope, behind all others. -/
theorem outer_concat {past : List Step} {step : Step} {s t : Nat} (h : Outer (past ++ [step]) s t) :
    Outer past s t ∨ s = (opened past).length ∧ step.opens? = some (some t) := by
  rw [Outer, opened_concat, List.getElem?_append] at h
  split at h
  · exact .inl h
  · rename_i hs
    cases hstep : step.opens? with
    | none => simp [hstep] at h
    | some outer =>
      rw [hstep, Option.toList_some, List.getElem?_singleton] at h
      split at h
      · exact .inr ⟨by omega, h⟩
      · cases h

theorem entries_concat (past : List Step) (step : Step) (s : ScopeId) :
    entries (past ++ [step]) s = entries past s ++ (step.entry? s).toList := by
  cases h : step.entry? s <;> simp [entries, h]

theorem mem_entries {past : List Step} {s : ScopeId} {name : String} {v : Value} :
    (name, v) ∈ entries past s ↔ .set s name v ∈ past := by
  unfold entries
  rw [List.mem_filterMap]
  constructor
  · rintro ⟨step, hstep, h⟩
    cases step with
    | set t name' v' =>
      by_cases ht : t = s
      · simp [Step.entry?, ht] at h
        rwa [← h.1, ← h.2, ← ht]
      · simp [Step.entry?, ht] at h
    | _ => simp [Step.entry?] at h
  · exact fun h => ⟨_, h, by simp [Step.entry?]⟩

theorem latest_concat {past : List Step} {s : ScopeId} {name : String} {u v : Value} :
    Latest (past ++ [.set s name u]) s name v ↔ u = v := by
  constructor
  · rintro ⟨before, after, hpast, hafter⟩
    rcases List.eq_nil_or_concat' after with rfl | ⟨after, last, rfl⟩
    · simpa using (List.append_inj' hpast rfl).2
    · -- the last step is among those after the latest one
      rw [← List.cons_append, ← List.append_assoc] at hpast
      have hlast : .set s name u = last := by simpa using (List.append_inj' hpast rfl).2
      exact absurd (by simp [← hlast]) (hafter u)
  · rintro rfl
    exact ⟨past, [], rfl, by simp⟩

theorem latest_concat_of_ne {past : List Step} {step : Step} {s : ScopeId} {name : String} {v : Value}
    (hstep : ∀ u, step ≠ .set s name u) : Latest (past ++ [step]) s name v ↔ Latest past s name v := by
  constructor
  · rintro ⟨before, after, hpast, hafter⟩
    rcases List.eq_nil_or_concat' after with rfl | ⟨after, last, rfl⟩
    · exact absurd (by simpa using (List.append_inj' hpast rfl).2) (hstep v)
    · rw [← List.cons_append, ← List.append_assoc] at hpast
      exact ⟨before, after, (List.append_inj' hpast rfl).1, fun u hu => hafter u (List.mem_append_left _ hu)⟩
  · rintro ⟨before, after, rfl, hafter⟩
    refine ⟨before, after ++ [step], by simp, fun u hu => ?_⟩
    rcases List.mem_append.1 hu with hu | hu
    · exact hafter u hu
    · exact hstep u (List.mem_singleton.1 hu).symm

/-- The entry that is found under a name is the latest binding of it. -/
theorem lookup_entries {s : ScopeId} {name : String} {v : Value} (past : List Step) :
    (Dict.ofEntries (entries past s)).lookup name = some v ↔ Latest past s name v := by
  induction past using List.reverseRecOn with
  | nil => simp [entries, Dict.ofEntries, Latest]
  | append_singleton past step ih =>
    by_cases hstep : ∃ u, step = .set s name u
    · obtain ⟨u, rfl⟩ := hstep
      simp [entries_concat, Step.entry?, Dict.ofEntries_concat, Dict.lookup_insert, latest_concat]
    · rw [latest_concat_of_ne fun u hu => hstep ⟨u, hu⟩, ← ih, entries_concat]
      cases step with
      | set t name' u =>
        by_cases ht : t = s
        · have hname : ¬ name = name' := fun hname => hstep ⟨u, by rw [ht, hname]⟩
          simp [Step.entry?, ht, Dict.ofEntries_concat, Dict.lookup_insert, hname]
        · simp [Step.entry?, ht]
      | _ => simp [Step.entry?]

theorem lookup_entries_none {s : ScopeId} {name : String} {past : List Step} :
    (Dict.ofEntries (entries past s)).lookup name = none ↔ ∀ u, .set s name u ∉ past := by
  rw [Dict.lookup_ofEntries, List.lookup_eq_none_iff]
  constructor
  · intro h u hu
    simpa using h (name, u) (List.mem_reverse.2 (mem_entries.2 hu))
  · rintro h ⟨name', u⟩ hu
    refine bne_iff_ne.2 ?_
    rintro rfl
    exact h u (mem_entries.1 (List.mem_reverse.1 hu))

/-! ## What the store keeps of a history -/

namespace After

variable {past : List Step} {st : Store}

/-- A scope keeps what it was opened in. -/
theorem links_eq (h : After past st) : st.scopes.toList.map (·.outer) = opened past := by
  induction h with
  | start => rfl
  | new h ih => simp [push, opened_concat, Step.opens?, ih]
  | child h houter ih => simp [push, opened_concat, Step.opens?, ih]
  | @set past st h t ht name v ih =>
    rw [opened_concat, show (Step.set t name v).opens? = none from rfl, Option.toList_none, List.append_nil, ← ih]
    refine List.ext_getElem? fun s => ?_
    unfold Store.set
    rw [List.getElem?_map, List.getElem?_map, Array.getElem?_toList, Array.getElem?_toList, Array.getElem?_modify]
    by_cases hts : t = s
    · rw [if_pos hts, Option.map_map]
      rfl
    · rw [if_neg hts]

theorem size_eq (h : After past st) : st.size = (opened past).length := by
  rw [← h.links_eq, List.length_map]
  rfl

theorem bindings_eq (h : After past st) (s : ScopeId) : st.bindings s = Dict.ofEntries (entries past s) := by
  induction h with
  | start => rfl
  | new h ih => simp [bindings_push, entries_concat, Step.entry?, ih]
  | child h houter ih => simp [bindings_push, entries_concat, Step.entry?, ih]
  | @set past st h t ht name v ih =>
    rw [bindings_set st ht, entries_concat, ih]
    by_cases hts : t = s
    · simp [Step.entry?, hts, Dict.ofEntries_concat]
    · simp [Step.entry?, hts]

theorem outer?_eq (h : After past st) (s : Nat) : st.outer? s = (opened past)[s]?.join := by
  rw [outer?, ← h.links_eq, List.getElem?_map, Array.getElem?_toList]
  cases st.scopes[s]? <;> rfl

/-- A scope is opened in an older one. -/
theorem lt_of_outer (h : After past st) {s t : Nat} (hst : Outer past s t) : t < s := by
  induction h with
  | start => cases hst
  | child h houter ih =>
    rcases outer_concat hst with hst | ⟨rfl, hopens⟩
    · exact ih hst
    · cases hopens
      rwa [← h.size_eq]
  | new h ih | set h hs name v ih => exact (outer_concat hst).elim ih fun h => nomatch h.2

theorem lt_of_transGen (h : After past st) {s t : Nat} (hst : Relation.TransGen (Outer past) s t) : t < s := by
  induction hst with
  | single hst => exact h.lt_of_outer hst
  | tail _ htu ih => exact Nat.lt_trans (h.lt_of_outer htu) ih

/-- The scopes around a scope are those on the way outward, and the way outward ends. -/
theorem outward (h : After past st) (s : Nat) (hs : s < st.size) : Outward past s (st.chain s) := by
  have hlink := h.outer?_eq s
  obtain ⟨outer, hopened⟩ : ∃ outer, (opened past)[s]? = some outer :=
    ⟨_, List.getElem?_eq_getElem (h.size_eq ▸ hs)⟩
  rw [hopened] at hlink
  rw [chain, enclosing, hlink]
  cases outer with
  | none => exact .outermost hopened
  | some t =>
    have ht : t < s := h.lt_of_outer hopened
    simp only [Option.join_some, if_pos ht]
    exact .inside hopened (outward h t (Nat.lt_trans ht hs))
termination_by s

end After

theorem Outward.mem_iff {past : List Step} {s : ScopeId} {path : List ScopeId} (h : Outward past s path) (t : ScopeId) :
    t ∈ path ↔ Relation.ReflTransGen (Outer past) s t := by
  induction h with
  | @outermost s hnone =>
    rw [List.mem_singleton]
    constructor
    · rintro rfl
      exact .refl
    · intro hst
      rcases hst.cases_head with rfl | ⟨u, hu, -⟩
      · rfl
      · rw [Outer, hnone] at hu
        cases hu
  | @inside s u path hu _ ih =>
    rw [List.mem_cons, ih]
    constructor
    · rintro (rfl | hut)
      · exact .refl
      · exact .head hu hut
    · intro hst
      rcases hst.cases_head with rfl | ⟨u', hu', hst⟩
      · exact .inl rfl
      · rw [Outer, hu] at hu'
        cases hu'
        exact .inr hst

theorem Outward.nodup {past : List Step} (hacyclic : ∀ s, ¬ Relation.TransGen (Outer past) s s) {s : ScopeId}
    {path : List ScopeId} (h : Outward past s path) : path.Nodup := by
  induction h with
  | outermost => exact List.nodup_singleton _
  | inside hu hpath ih => exact List.nodup_cons.2 ⟨fun hs => hacyclic _ (.head' hu ((hpath.mem_iff _).1 hs)), ih⟩

namespace After

variable {past : List Step} {st : Store}

theorem mem_enclosing (h : After past st) {s : Nat} (hs : s < st.size) (t : ScopeId) :
    t ∈ st.enclosing s ↔ Relation.TransGen (Outer past) s t := by
  have hacyclic (t : Nat) : ¬ Relation.TransGen (Outer past) t t := fun ht => Nat.lt_irrefl t (h.lt_of_transGen ht)
  have hpath := h.outward s hs
  have hmem := hpath.mem_iff t
  rw [chain, List.mem_cons, Relation.reflTransGen_iff_eq_or_transGen] at hmem
  constructor
  · intro ht
    refine (hmem.1 (.inr ht)).resolve_left ?_
    rintro rfl
    exact (List.nodup_cons.1 (hpath.nodup hacyclic)).1 ht
  · intro ht
    refine (hmem.2 (.inr ht)).resolve_left ?_
    rintro rfl
    exact hacyclic _ ht

theorem depth_eq (h : After past st) {s : Nat} (hs : s < st.size) :
    {t | Relation.TransGen (Outer past) s t}.Finite ∧
      st.depth s = 1 + {t | Relation.TransGen (Outer past) s t}.ncard := by
  have hset : {t | Relation.TransGen (Outer past) s t} = (st.enclosing s).toFinset := by
    ext t
    simp [h.mem_enclosing hs]
  have hnodup : (st.enclosing s).Nodup := (List.nodup_cons.1 ((h.outward s hs).nodup fun t ht =>
    Nat.lt_irrefl t (h.lt_of_transGen ht))).2
  rw [hset, Set.ncard_coe_finset, List.toFinset_card_of_nodup hnodup, depth, chain, List.length_cons, Nat.add_comm]
  exact ⟨Finset.finite_toSet _, rfl⟩

theorem get?_eq_some (h : After past st) (s : ScopeId) (name : String) (v : Value) :
    st.get? s name = some v ↔ ∃ near t far, st.chain s = near ++ t :: far ∧
      (∀ t' ∈ near, ∀ u, .set t' name u ∉ past) ∧ Latest past t name v := by
  simp only [get?, List.findSome?_eq_some_iff, h.bindings_eq, lookup_entries, lookup_entries_none]
  constructor
  · rintro ⟨near, t, far, hchain, ht, hnear⟩
    exact ⟨near, t, far, hchain, hnear, ht⟩
  · rintro ⟨near, t, far, hchain, hnear, ht⟩
    exact ⟨near, t, far, hchain, ht, hnear⟩

theorem get?_eq_none (h : After past st) (s : ScopeId) (name : String) :
    st.get? s name = none ↔ ∀ t ∈ st.chain s, ∀ u, .set t name u ∉ past := by
  simp only [get?, List.findSome?_eq_none_iff, h.bindings_eq, lookup_entries_none]

end After

/-- Binding a name in a scope that is not on the way outward changes no meaning. -/
theorem get?_set_of_not_mem {st : Store} {s t : Nat} (ht : t ∉ st.chain s) (name : String) (v : Value) (other : String) :
    (st.set t name v).get? s other = st.get? s other := by
  have hchain : (st.set t name v).chain s = st.chain s := by rw [chain, chain, enclosing_set]
  have hbindings (u : ScopeId) (hu : u ∈ st.chain s) : (st.set t name v).bindings u = st.bindings u := by
    by_cases hsize : t < st.size
    · rw [bindings_set st hsize, if_neg fun (htu : t = u) => ht (htu ▸ hu)]
    · rw [set_of_size_le st (Nat.le_of_not_lt hsize)]
  exact get?_congr hchain fun u hu => congrArg (List.lookup other) (hbindings u hu)

/-- **A name means its latest binding in the nearest scope that ever got it.**  After any history, for every scope:
no scope lies around itself, so the way outward ends, after one step for each scope around; what a name means on that way
is what it got last in the nearest scope that ever got it, if any did; an operation in a scope off that way changes
nothing of it; and a scope lists the names it got, each once, in the order of the first time, with what it got last. -/
theorem After.means_nearest_binding {past : List Step} {st : Store} (h : After past st) :
    (∀ s, ¬ Relation.TransGen (Outer past) s s) ∧
    ∀ s : Nat, s < st.size →
      -- the way outward, and its length
      (Outward past s (st.chain s) ∧ (∀ t, t ∈ st.chain s ↔ Relation.ReflTransGen (Outer past) s t) ∧
        {t | Relation.TransGen (Outer past) s t}.Finite ∧
        st.depth s = 1 + {t | Relation.TransGen (Outer past) s t}.ncard) ∧
      -- what a name means
      (∀ name, (∀ v, st.get? s name = some v ↔ ∃ near t far, st.chain s = near ++ t :: far ∧
          (∀ t' ∈ near, ∀ u, .set t' name u ∉ past) ∧ Latest past t name v) ∧
        (st.get? s name = none ↔ ∀ t ∈ st.chain s, ∀ u, .set t name u ∉ past)) ∧
      (∀ t name v, ¬ Relation.ReflTransGen (Outer past) s t → ∀ other,
        (st.set t name v).get? s other = st.get? s other) ∧
      -- what the scope lists
      ((st.bindings s).map (·.1) = ((entries past s).map (·.1)).eraseDups ∧
        ((st.bindings s).map (·.1)).Nodup ∧ ∀ name v, (name, v) ∈ st.bindings s ↔ Latest past s name v) := by
  have hacyclic (s : Nat) : ¬ Relation.TransGen (Outer past) s s := fun hs => Nat.lt_irrefl s (h.lt_of_transGen hs)
  refine ⟨hacyclic, fun s hs => ?_⟩
  have hpath := h.outward s hs
  have hentries := h.bindings_eq s
  have hnodup : ((st.bindings s).map (·.1)).Nodup := hentries ▸ Dict.nodup_keys_ofEntries _
  refine ⟨⟨hpath, hpath.mem_iff, h.depth_eq hs⟩, fun name => ⟨h.get?_eq_some s name, h.get?_eq_none s name⟩,
    fun t name v ht => ?_, ?_, hnodup, fun name v => ?_⟩
  · exact get?_set_of_not_mem (fun hmem => ht ((hpath.mem_iff t).1 hmem)) name v
  · rw [hentries, Dict.keys_ofEntries]
  · rw [Dict.mem_iff_lookup hnodup, hentries, lookup_entries]

/-- A name is bound outside and then inside; the scope inside also sees what is bound outside later. -/
theorem After.means_nearest_binding_shadowed : ∃ st : Store,
    After [.new, .set 0 "a" (.int 1), .child 0, .set 1 "a" (.int 2), .set 0 "b" (.int 3)] st ∧
      st.get? 1 "a" = some (.int 2) ∧ st.get? 0 "a" = some (.int 1) ∧ st.get? 1 "b" = some (.int 3) := by
  have h := ((((After.start.new).set (s := 0) (by decide) "a" (.int 1)).child (by decide : 0 < _)).set (s := 1)
    (by decide) "a" (.int 2)).set (s := 0) (by decide) "b" (.int 3)
  obtain ⟨-, hscopes⟩ := means_nearest_binding h
  obtain ⟨-, houtside, -⟩ := hscopes 0 (by decide)
  obtain ⟨-, hinside, -⟩ := hscopes 1 (by decide)
  refine ⟨_, h, ((hinside "a").1 _).2 ⟨[], 1, [0], by decide +kernel, by simp, ?_⟩,
    ((houtside "a").1 _).2 ⟨[], 0, [], by decide +kernel, by simp, ?_⟩,
    ((hinside "b").1 _).2 ⟨[1], 0, [], by decide +kernel, by simp, ?_⟩⟩
  · exact ⟨[.new, .set 0 "a" (.int 1), .child 0], [.set 0 "b" (.int 3)], rfl, by simp⟩
  · exact ⟨[.new], [.child 0, .set 1 "a" (.int 2), .set 0 "b" (.int 3)], rfl, by simp⟩
  · exact ⟨[.new, .set 0 "a" (.int 1), .child 0, .set 1 "a" (.int 2)], [], rfl, by simp⟩

end Store

end Monkey
