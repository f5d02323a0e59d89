import Monkey.Proofs.Lines
/-!
# Tabs and what stands around them

Expanding the tabs of a text goes from left to right and carries a column along.  What is in front of a place is
expanded as if it stood alone, and what is behind it as if it began in the column where that ends.
-/
namespace Monkey

namespace Text.Tab

/-- The column behind a text that begins in a column, counted as tab stops are. -/
def columnAfter : Nat → List Char → Nat
  | n, [] => n
  | n, c :: rest =>
    if c = '\t' then columnAfter (n + (width - n % width)) rest
    else if c = '\n' ∨ c = '\r' then columnAfter 0 rest
    else columnAfter (n + 1) rest

theorem expandFrom_append (text text' : List Char) : ∀ n : Nat,
    expandFrom n (text ++ text') = expandFrom n text ++ expandFrom (columnAfter n text) text' := by
  induction text with
  | nil => intro n; rfl
  | cons c text ih =>
    intro n
    simp only [List.cons_append, expandFrom, columnAfter, ih]
    split
    · rw [List.append_assoc]
    · split <;> rfl

/-- A plain character stands for itself. -/
theorem expandFrom_cons {c : Char} (hc : c ∉ ['\t', '\n', '\r']) (n : Nat) (text : List Char) :
    expandFrom n (c :: text) = c :: expandFrom (n + 1) text := by
  simp only [List.mem_cons, List.not_mem_nil, or_false, not_or] at hc
  rw [expandFrom, if_neg hc.1, if_neg (by simp [hc.2])]

theorem expandFrom_spaces (k : Nat) (text : List Char) : ∀ n : Nat,
    expandFrom n (List.replicate k ' ' ++ text) = List.replicate k ' ' ++ expandFrom (n + k) text := by
  induction k with
  | zero => intro n; rfl
  | succ k ih =>
    intro n
    rw [List.replicate_succ, List.cons_append, expandFrom_cons (by decide), ih, Nat.add_right_comm, Nat.add_assoc]
    rfl

/-- A tab stands for one space at least. -/
theorem expandFrom_tab (n : Nat) : ∃ k, ∀ text : List Char,
    expandFrom n ('\t' :: text) = List.replicate (k + 1) ' ' ++ expandFrom (n + (k + 1)) text := by
  have hpos : 0 < width - n % width := Nat.sub_pos_of_lt (Nat.mod_lt _ (by decide))
  obtain ⟨k, hk⟩ := Nat.exists_eq_succ_of_ne_zero (Nat.ne_of_gt hpos)
  refine ⟨k, fun text => ?_⟩
  rw [expandFrom, if_pos rfl, hk]

/-- A character that is no tab stands for itself, and what is behind it begins in one column or another. -/
theorem expandFrom_cons_of_ne {c : Char} (hc : c ≠ '\t') (n : Nat) :
    ∃ m, ∀ text : List Char, expandFrom n (c :: text) = c :: expandFrom m text := by
  by_cases hend : c = '\n' ∨ c = '\r'
  · exact ⟨0, fun text => by rw [expandFrom, if_neg hc, if_pos hend]⟩
  · exact ⟨n + 1, fun text => by rw [expandFrom, if_neg hc, if_neg hend]⟩

/-- What stands in an expanded text stood there before, or is a space in the place of a tab. -/
theorem mem_expandFrom {d : Char} (text : List Char) : ∀ {n : Nat}, d ∈ expandFrom n text →
    d ≠ '\t' ∧ (d ∈ text ∨ d = ' ' ∧ '\t' ∈ text) := by
  induction text with
  | nil => intro n h; cases h
  | cons c text ih =>
    intro n h
    have htail {m : Nat} (h : d ∈ expandFrom m text) : d ≠ '\t' ∧ (d ∈ c :: text ∨ d = ' ' ∧ '\t' ∈ c :: text) :=
      (ih h).imp_right (Or.imp (List.mem_cons_of_mem _) (And.imp_right (List.mem_cons_of_mem _)))
    by_cases htab : c = '\t'
    · subst htab
      obtain ⟨k, hk⟩ := expandFrom_tab n
      rw [hk] at h
      rcases List.mem_append.1 h with h | h
      · obtain rfl := List.eq_of_mem_replicate h
        exact ⟨by decide, .inr ⟨rfl, List.mem_cons_self⟩⟩
      · exact htail h
    · obtain ⟨m, hm⟩ := expandFrom_cons_of_ne htab n
      rw [hm] at h
      rcases List.mem_cons.1 h with rfl | h
      · exact ⟨htab, .inl List.mem_cons_self⟩
      · exact htail h

/-- What stands in front of a character that is no space is the expansion of what stood in front of it before. -/
theorem eq_append_of_expandFrom {d : Char} (hd : d ≠ ' ') (text : List Char) : ∀ {n : Nat} {front behind : List Char},
    expandFrom n text = front ++ d :: behind → ∃ pre e post, text = pre ++ e :: post ∧ front = expandFrom n pre := by
  induction text with
  | nil => intro n front behind h; cases front <;> cases h
  | cons c text ih =>
    intro n front behind h
    by_cases htab : c = '\t'
    · subst htab
      obtain ⟨k, hk⟩ := expandFrom_tab n
      rw [hk] at h
      rcases List.append_eq_append_iff.1 h with ⟨rest, hfront, hrest⟩ | ⟨rest, hspaces, hrest⟩
      · obtain ⟨pre, e, post, rfl, rfl⟩ := ih hrest
        exact ⟨'\t' :: pre, e, post, rfl, by rw [hk, hfront]⟩
      · cases rest with
        | nil =>
          obtain ⟨pre, e, post, rfl, hpre⟩ := ih (show _ = [] ++ d :: behind from hrest.symm)
          exact ⟨'\t' :: pre, e, post, rfl, by simp [hk, ← hpre, hspaces]⟩
        | cons e rest =>
          -- the character would be one of the spaces of the tab
          cases hrest
          have hmem : d ∈ List.replicate (k + 1) ' ' := hspaces ▸ by simp
          exact absurd (List.eq_of_mem_replicate hmem) hd
    · obtain ⟨m, hm⟩ := expandFrom_cons_of_ne htab n
      rw [hm] at h
      cases front with
      | nil => exact ⟨[], c, text, rfl, rfl⟩
      | cons _ front =>
        obtain ⟨rfl, hrest⟩ := List.cons.inj h
        obtain ⟨pre, e, post, rfl, rfl⟩ := ih hrest
        exact ⟨c :: pre, e, post, rfl, (hm pre).symm⟩

/-- Characters without a space among them stood together before. -/
theorem eq_append_of_expandFrom_append : ∀ {w : List Char}, ' ' ∉ w → ∀ {n : Nat} {text behind : List Char},
    expandFrom n text = w ++ behind → ∃ rest, text = w ++ rest
  | [], _, _, text, _, _ => ⟨text, rfl⟩
  | d :: w, hw, n, text, behind, h => by
    cases text with
    | nil => cases h
    | cons c text =>
      by_cases htab : c = '\t'
      · subst htab
        obtain ⟨k, hk⟩ := expandFrom_tab n
        rw [hk] at h
        obtain ⟨rfl, -⟩ := List.cons.inj h
        exact absurd List.mem_cons_self hw
      · obtain ⟨m, hm⟩ := expandFrom_cons_of_ne htab n
        rw [hm] at h
        obtain ⟨rfl, htail⟩ := List.cons.inj h
        obtain ⟨rest, rfl⟩ := eq_append_of_expandFrom_append (fun hmem => hw (List.mem_cons_of_mem _ hmem)) htail
        exact ⟨rest, rfl⟩

/-- A text ends as before, but for spaces in the place of a tab. -/
theorem any_getLast?_expandFrom {q : Char → Bool} (hspace : q ' ' = false) (htab : q '\t' = false) (n : Nat)
    (text : List Char) : (expandFrom n text).getLast?.any q = text.getLast?.any q := by
  rcases List.eq_nil_or_concat text with rfl | ⟨text, c, rfl⟩
  · rfl
  · rw [List.concat_eq_append, expandFrom_append, List.getLast?_append, List.getLast?_concat]
    by_cases hc : c = '\t'
    · subst hc
      obtain ⟨k, hk⟩ := expandFrom_tab (columnAfter n text)
      rw [hk, expandFrom, List.append_nil, List.getLast?_replicate]
      exact hspace.trans htab.symm
    · obtain ⟨m, hm⟩ := expandFrom_cons_of_ne hc (columnAfter n text)
      rw [hm]
      rfl

/-- Expanding changes nothing just where there is no tab. -/
theorem expandFrom_eq_self_iff {n : Nat} {text : List Char} : expandFrom n text = text ↔ '\t' ∉ text :=
  ⟨fun h htab => (mem_expandFrom text (h.symm ▸ htab)).1 rfl, expandFrom_of_noTab n⟩

end Text.Tab

end Monkey
