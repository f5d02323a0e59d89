import Mathlib.Data.List.Induction
import Monkey.Proofs.Frame
/-!
# Lookup agrees with equality

A hash literal is filled entry by entry: a key that is there already keeps its place and takes the later value.  What is
found under a key is therefore the value of the last entry whose key is equal to it, as the operator `==` compares
values (`Eval.hash_lookup_agrees`).  Both come down to the equality of keys: the operator tells integers, booleans and
strings apart as their keys are told apart.
-/
namespace Monkey

/-! ## Dictionaries -/

namespace Dict

variable {κ ν : Type} [BEq κ]

theorem ofEntries_concat (entries : List (κ × ν)) (e : κ × ν) :
    ofEntries (entries ++ [e]) = insert e.1 e.2 (ofEntries entries) := by
  rw [ofEntries, List.foldl_append]
  rfl

variable [LawfulBEq κ]

theorem lookup_insert (k key : κ) (value : ν) (dict : List (κ × ν)) :
    (insert key value dict).lookup k = if k == key then some value else dict.lookup k := by
  induction dict with
  | nil => by_cases hk : (k == key) = true <;> simp [insert, List.lookup_cons, hk]
  | cons e dict ih =>
    obtain ⟨key', value'⟩ := e
    rw [insert]
    by_cases he : (key' == key) = true
    · rw [if_pos he, eq_of_beq he]
      by_cases hk : (k == key) = true <;> simp [List.lookup_cons, hk]
    · rw [if_neg he, List.lookup_cons, ih, List.lookup_cons]
      cases hk' : k == key' with
      | true =>
        -- the entry that is found is under another key than the one that is replaced
        have hne : ¬ (k == key) = true := by rwa [eq_of_beq hk']
        exact (if_neg hne).symm
      | false => rfl

/-- A key that is not there yet gets the last place. -/
theorem keys_insert_of_not_mem {key : κ} (value : ν) {dict : List (κ × ν)} (h : key ∉ dict.map (·.1)) :
    (insert key value dict).map (·.1) = dict.map (·.1) ++ [key] := by
  induction dict with
  | nil => rfl
  | cons e dict ih =>
    rw [List.map_cons, List.mem_cons, not_or] at h
    rw [insert, if_neg fun he => h.1 (eq_of_beq he).symm, List.map_cons, ih h.2]
    rfl

theorem keys_insert_of_mem {key : κ} (value : ν) {dict : List (κ × ν)} (h : key ∈ dict.map (·.1)) :
    (insert key value dict).map (·.1) = dict.map (·.1) := by
  induction dict with
  | nil => cases h
  | cons e dict ih =>
    rw [insert]
    by_cases he : (e.1 == key) = true
    · rw [if_pos he, List.map_cons, List.map_cons, eq_of_beq he]
    · rw [if_neg he, List.map_cons, List.map_cons, ih]
      exact (List.mem_cons.1 h).resolve_left fun heq => he (beq_iff_eq.2 heq.symm)

theorem nodup_keys_insert (key : κ) (value : ν) {dict : List (κ × ν)} (h : (dict.map (·.1)).Nodup) :
    ((insert key value dict).map (·.1)).Nodup := by
  by_cases hmem : key ∈ dict.map (·.1)
  · rwa [keys_insert_of_mem value hmem]
  · rw [keys_insert_of_not_mem value hmem, List.nodup_append]
    refine ⟨h, by simp, fun k hk k' hk' => ?_⟩
    rw [List.mem_singleton.1 hk']
    exact fun heq => hmem (heq ▸ hk)

theorem nodup_keys_ofEntries (entries : List (κ × ν)) : ((ofEntries entries).map (·.1)).Nodup := by
  induction entries using List.reverseRecOn with
  | nil => exact List.nodup_nil
  | append_singleton entries e ih =>
    rw [ofEntries_concat]
    exact nodup_keys_insert _ _ ih

/-- The keys stand in the order of their first entries. -/
theorem keys_ofEntries (entries : List (κ × ν)) : (ofEntries entries).map (·.1) = (entries.map (·.1)).eraseDups := by
  induction entries using List.reverseRecOn with
  | nil => rfl
  | append_singleton entries e ih =>
    rw [ofEntries_concat, List.map_append, List.eraseDups_append, ← ih]
    by_cases hmem : e.1 ∈ (ofEntries entries).map (·.1)
    · have h : e.1 ∈ entries.map (·.1) := by rwa [ih, List.mem_eraseDups] at hmem
      rw [keys_insert_of_mem _ hmem]
      simp [List.removeAll, h]
    · have h : e.1 ∉ entries.map (·.1) := by rwa [ih, List.mem_eraseDups] at hmem
      rw [keys_insert_of_not_mem _ hmem]
      simp [List.removeAll, h, List.eraseDups_cons]

/-- The last entry under a key is the one that is found. -/
theorem lookup_ofEntries (k : κ) (entries : List (κ × ν)) :
    (ofEntries entries).lookup k = entries.reverse.lookup k := by
  induction entries using List.reverseRecOn with
  | nil => rfl
  | append_singleton entries e ih =>
    rw [ofEntries_concat, lookup_insert, ih, List.reverse_append, List.reverse_singleton, List.singleton_append,
      List.lookup_cons]
    cases k == e.1 <;> rfl

theorem lookup_ofEntries_last {k : κ} {entries pre post : List (κ × ν)} {value : ν}
    (h : entries = pre ++ (k, value) :: post) (hpost : ∀ e ∈ post, e.1 ≠ k) :
    (ofEntries entries).lookup k = some value := by
  have hnone : post.reverse.lookup k = none :=
    List.lookup_eq_none_iff.2 fun e he => bne_iff_ne.2 (hpost e (List.mem_reverse.1 he)).symm
  rw [lookup_ofEntries, h, List.reverse_append, List.reverse_cons, List.append_assoc, List.lookup_append, hnone,
    Option.none_or, List.singleton_append, List.lookup_cons, beq_self_eq_true]

theorem lookup_ofEntries_none {k : κ} {entries : List (κ × ν)} (h : ∀ e ∈ entries, e.1 ≠ k) :
    (ofEntries entries).lookup k = none := by
  rw [lookup_ofEntries]
  exact List.lookup_eq_none_iff.2 fun e he => bne_iff_ne.2 (h e (List.mem_reverse.1 he)).symm

end Dict

/-! ## Keys -/

namespace Value

theorem eq_toValue {v : Value} {key : Key} (h : v.key? = some key) : v = key.toValue := by
  cases v <;> cases h <;> rfl

theorem isError_of_key {v : Value} {key : Key} (h : v.key? = some key) : v.isError = false := by
  rw [eq_toValue h]
  cases key <;> rfl

/-- The operator `==` on values that can be keys is equality of their keys. -/
theorem applyBinary_eq_of_key {a b : Value} {i j : Key} (ha : a.key? = some i) (hb : b.key? = some j) :
    a.applyBinary .eq b = .ok (.bool (decide (i = j))) := by
  rw [eq_toValue ha, eq_toValue hb]
  cases i <;> cases j <;> simp [Key.toValue, applyBinary, applyInt, same, beq_eq_decide]

theorem applyIndex_hash {k : Value} {key : Key} (hkey : k.key? = some key) (id : Identity)
    (pairs : List (Key × Value)) : (hash id pairs).applyIndex k = .ok ((pairs.lookup key).getD .null) := by
  rw [eq_toValue hkey]
  cases key <;> rfl

/-- Values of different types are different keys. -/
theorem key?_ne_of_type {a b : Value} {i j : Key} (ha : a.key? = some i) (hb : b.key? = some j)
    (htype : a.type ≠ b.type) : i ≠ j := fun h => by
  rw [eq_toValue ha, eq_toValue hb, h] at htype
  exact htype rfl

end Value

/-! ## Hash literals -/

namespace Eval

/-- The entries of a hash literal, each key and then its value, evaluate to values that can be keys and to values that
are no errors. -/
inductive Entries (n : Nat) (s : ScopeId) : List (Expr × Expr) → World → List (Value × Value) → World → Prop
  | nil (w : World) : Entries n s [] w [] w
  | cons {keyExpr valueExpr : Expr} {entries : List (Expr × Expr)} {k v : Value} {kvs : List (Value × Value)}
      {w w₁ w₂ w₃ : World} (hk : evaluate n (.expr keyExpr) s w = .value k w₁) (hkey : k.key?.isSome = true)
      (hv : evaluate n (.expr valueExpr) s w₁ = .value v w₂) (herror : v.isError = false)
      (rest : Entries n s entries w₂ kvs w₃) : Entries n s ((keyExpr, valueExpr) :: entries) w ((k, v) :: kvs) w₃

/-- Entries under the keys that their values are. -/
def keyed (kvs : List (Value × Value)) : List (Key × Value) := kvs.filterMap fun e => e.1.key?.map fun key => (key, e.2)

theorem keyed_cons {k : Value} {key : Key} (hkey : k.key? = some key) (v : Value) (kvs : List (Value × Value)) :
    keyed ((k, v) :: kvs) = (key, v) :: keyed kvs := by
  rw [keyed, List.filterMap_cons, hkey]
  rfl

/-- An entry stands under a key that its value is. -/
theorem exists_of_mem_keyed {kvs : List (Value × Value)} {e : Key × Value} (h : e ∈ keyed kvs) :
    ∃ k, (k, e.2) ∈ kvs ∧ k.key? = some e.1 := by
  obtain ⟨⟨k, v⟩, hmem, heq⟩ := List.mem_filterMap.1 h
  obtain ⟨key, hkey, rfl⟩ := Option.map_eq_some_iff.1 heq
  exact ⟨k, hmem, hkey⟩

/-- No entry stands under the key of a value that equals none of the keys. -/
theorem keyed_ne {kvs : List (Value × Value)} {k : Value} {key : Key} (hkey : k.key? = some key)
    (h : ∀ e ∈ kvs, e.1.applyBinary .eq k ≠ .ok (.bool true)) : ∀ e ∈ keyed kvs, e.1 ≠ key := by
  rintro e he rfl
  obtain ⟨k', hmem, hkey'⟩ := exists_of_mem_keyed he
  refine h (k', e.2) hmem ?_
  rw [Value.applyBinary_eq_of_key hkey' hkey, decide_eq_true rfl]

theorem Entries.pairs {n : Nat} {s : ScopeId} {entries : List (Expr × Expr)} {w w' : World}
    {kvs : List (Value × Value)} (h : Entries n s entries w kvs w') (done : List (Key × Value)) :
    Eval.pairs (evaluate n) s done entries w =
      .value (.ok ((keyed kvs).foldl (fun dict e => Dict.insert e.1 e.2 dict) done)) w' := by
  induction h generalizing done with
  | nil => rfl
  | @cons keyExpr valueExpr entries k v kvs w w₁ w₂ w₃ hk hkey hv herror rest ih =>
    obtain ⟨key, hkey⟩ := Option.isSome_iff_exists.1 hkey
    have hfirst : Eval.pairs (evaluate n) s done ((keyExpr, valueExpr) :: entries) w =
        Eval.pairs (evaluate n) s (Dict.insert key v done) entries w₂ := by
      rw [Eval.pairs, bind_value hk, Value.isError_of_key hkey, hkey]
      refine (bind_value hv).trans ?_
      rw [herror]
      rfl
    rw [hfirst, ih, keyed_cons hkey]
    rfl

theorem Entries.key_isSome {n : Nat} {s : ScopeId} {entries : List (Expr × Expr)} {w w' : World}
    {kvs : List (Value × Value)} (h : Entries n s entries w kvs w') : ∀ e ∈ kvs, e.1.key?.isSome = true := by
  induction h with
  | nil => nofun
  | cons _ hkey _ _ _ ih => exact List.forall_mem_cons.2 ⟨hkey, ih⟩

/-- What a hash literal evaluates to. -/
theorem Entries.evaluate_hash {n : Nat} {s : ScopeId} {pos : Pos} {entries : List (Expr × Expr)} {w w' : World}
    {kvs : List (Value × Value)}
    (h : Entries n s entries { w with log := .enter (.expr (.hash pos entries)) s :: w.log } kvs w') :
    ∃ w'', evaluate (n + 1) (.expr (.hash pos entries)) s w =
      .value (.hash w'.fresh (Dict.ofEntries (keyed kvs))) w'' := by
  have hnode : node (evaluate n) s (.expr (.hash pos entries))
      { w with log := .enter (.expr (.hash pos entries)) s :: w.log } =
      .value (.hash w'.fresh (Dict.ofEntries (keyed kvs))) { w' with fresh := w'.fresh + 1 } :=
    (bind_value (h.pairs [])).trans rfl
  exact ⟨_, (bind_value rfl).trans ((bind_value hnode).trans rfl)⟩

/-- What the keys of entries are. -/
theorem keys_keyed (kvs : List (Value × Value)) : (keyed kvs).map (·.1) = kvs.filterMap (·.1.key?) := by
  simp [keyed, List.map_filterMap, Function.comp_def]

/-- **Lookup agrees with equality.**  Let the keys of a hash literal evaluate to values that can be keys, and its values
to no errors.  Then it evaluates to a hash in which any value that can be a key finds the value of the last entry whose
key is equal to it, and null if there is no such entry.  The keys of the hash are pairwise different and stand in the
order of their first entries; and values of different types are neither equal nor the same key. -/
theorem hash_lookup_agrees {n : Nat} {s : ScopeId} {pos : Pos} {entries : List (Expr × Expr)} {w w' : World}
    {kvs : List (Value × Value)}
    (h : Entries n s entries { w with log := .enter (.expr (.hash pos entries)) s :: w.log } kvs w') :
    ∃ pairs w'', evaluate (n + 1) (.expr (.hash pos entries)) s w = .value (.hash w'.fresh pairs) w'' ∧
      (∀ k : Value, k.key?.isSome = true →
        (∀ pre ki vi post, kvs = pre ++ (ki, vi) :: post → ki.applyBinary .eq k = .ok (.bool true) →
          (∀ e ∈ post, e.1.applyBinary .eq k ≠ .ok (.bool true)) →
          (Value.hash w'.fresh pairs).applyIndex k = .ok vi) ∧
        ((∀ e ∈ kvs, e.1.applyBinary .eq k ≠ .ok (.bool true)) →
          (Value.hash w'.fresh pairs).applyIndex k = .ok .null)) ∧
      (pairs.map (·.1)).Nodup ∧ pairs.map (·.1) = (kvs.filterMap (·.1.key?)).eraseDups ∧
      ∀ a b : Value, a.key?.isSome = true → b.key?.isSome = true → a.type ≠ b.type →
        a.key? ≠ b.key? ∧ a.applyBinary .eq b = .ok (.bool false) := by
  obtain ⟨w'', hrun⟩ := h.evaluate_hash
  refine ⟨_, w'', hrun, fun k hk => ?_, Dict.nodup_keys_ofEntries _, ?_, fun a b ha hb htype => ?_⟩
  · obtain ⟨key, hkey⟩ := Option.isSome_iff_exists.1 hk
    rw [Value.applyIndex_hash hkey]
    refine ⟨fun pre ki vi post hkvs heq hpost => ?_, fun hnone => ?_⟩
    · obtain ⟨i, hi⟩ := Option.isSome_iff_exists.1 (h.key_isSome (ki, vi) (hkvs ▸ by simp))
      have hik : i = key := by simpa [Value.applyBinary_eq_of_key hi hkey] using heq
      have hkeyed : keyed kvs = keyed pre ++ (key, vi) :: keyed post := by
        rw [hkvs, ← hik, ← keyed_cons hi, keyed, List.filterMap_append]
        rfl
      rw [Dict.lookup_ofEntries_last hkeyed (keyed_ne hkey hpost)]
      rfl
    · rw [Dict.lookup_ofEntries_none (keyed_ne hkey hnone)]
      rfl
  · rw [Dict.keys_ofEntries, keys_keyed]
  · obtain ⟨i, hi⟩ := Option.isSome_iff_exists.1 ha
    obtain ⟨j, hj⟩ := Option.isSome_iff_exists.1 hb
    have hne : i ≠ j := Value.key?_ne_of_type hi hj htype
    rw [hi, hj, Value.applyBinary_eq_of_key hi hj, decide_eq_false hne]
    exact ⟨fun heq => hne (Option.some.inj heq), rfl⟩

/-- The literal `{1: 10, true: 20, 1: 30}`: the last value under `1`, at the place of the first, and nothing under
`"1"`. -/
theorem hash_lookup_agrees_duplicate :
    ∃ (entries : List (Expr × Expr)) (kvs : List (Value × Value)) (w' w'' : World) (pairs : List (Key × Value)),
      kvs = [(.int 1, .int 10), (.bool true, .int 20), (.int 1, .int 30)] ∧
      Entries 1 0 entries { World.empty with log := [.enter (.expr (.hash ⟨1, 1⟩ entries)) 0] } kvs w' ∧
      evaluate 2 (.expr (.hash ⟨1, 1⟩ entries)) 0 .empty = .value (.hash w'.fresh pairs) w'' ∧
      (Value.hash w'.fresh pairs).applyIndex (.int 1) = .ok (.int 30) ∧
      (Value.hash w'.fresh pairs).applyIndex (.bool true) = .ok (.int 20) ∧
      (Value.hash w'.fresh pairs).applyIndex (.str "1") = .ok .null ∧ pairs.map (·.1) = [.int 1, .bool true] := by
  let visited (e : Expr) (v : Value) (w : World) : World :=
    { w with log := .leave (.expr e) 0 v :: .enter (.expr e) 0 :: w.log }
  let literal (n : Nat) : Expr := .int ⟨1, 1⟩ "" n
  let entries : List (Expr × Expr) :=
    [(literal 1, literal 10), (.bool ⟨1, 1⟩ true, literal 20), (literal 1, literal 30)]
  have hint (n : Nat) (w : World) :
      evaluate 1 (.expr (literal n)) 0 w = .value (.int n) (visited (literal n) (.int n) w) := rfl
  have hbool (w : World) : evaluate 1 (.expr (.bool ⟨1, 1⟩ true)) 0 w =
      .value (.bool true) (visited (.bool ⟨1, 1⟩ true) (.bool true) w) := rfl
  have h : Entries 1 0 entries { World.empty with log := [.enter (.expr (.hash ⟨1, 1⟩ entries)) 0] }
      [(.int 1, .int 10), (.bool true, .int 20), (.int 1, .int 30)] _ :=
    .cons (hint 1 _) rfl (hint 10 _) rfl (.cons (hbool _) rfl (hint 20 _) rfl
      (.cons (hint 1 _) rfl (hint 30 _) rfl (.nil _)))
  obtain ⟨pairs, w'', hrun, hlookup, -, hkeys, -⟩ := hash_lookup_agrees h
  refine ⟨entries, _, _, w'', pairs, rfl, h, hrun, ?_, ?_, ?_, ?_⟩
  · exact (hlookup (.int 1) rfl).1 [(.int 1, .int 10), (.bool true, .int 20)] (.int 1) (.int 30) [] rfl rfl nofun
  · refine (hlookup (.bool true) rfl).1 [(.int 1, .int 10)] (.bool true) (.int 20) [(.int 1, .int 30)] rfl rfl ?_
    intro e he
    rw [List.mem_singleton.1 he]
    nofun
  · refine (hlookup (.str "1") rfl).2 fun e he => ?_
    simp only [List.mem_cons, List.not_mem_nil, or_false] at he
    rcases he with rfl | rfl | rfl <;> nofun
  · rw [hkeys]
    rfl

end Eval
end Monkey
