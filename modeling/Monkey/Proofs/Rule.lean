import Monkey.Parser.Grammar
/-!
# What a rule guarantees

A rule of the grammar has three ends, and a statement about it says something of each: `Outcome.Holds` takes what is to
be true of a result, of malformed input and of a spent budget.  One lemma for each primitive of `Parse` carries such a
statement over a sequence, so that a statement about a rule follows the text of the rule.
-/
namespace Monkey

/-- An outcome keeps a promise: `D` holds of a result and the parser behind it, `M` of the parser that malformed input
leaves, and `X` is true if the budget is spent. -/
def Outcome.Holds {α : Type} (D : α → Parser → Prop) (M : Parser → Prop) (X : Prop) : Outcome α → Prop
  | .done a q => D a q
  | .malformed q => M q
  | .exhausted => X

/-- `D` holds of the result, if there is one. -/
abbrev Outcome.Gives {α : Type} (o : Outcome α) (D : α → Parser → Prop) : Prop := o.Holds D (fun _ => True) True

/-- The input is not malformed, and `D` holds of the result if the budget suffices. -/
abbrev Outcome.Succeeds {α : Type} (o : Outcome α) (D : α → Parser → Prop) : Prop := o.Holds D (fun _ => False) True

namespace Outcome

variable {α : Type} {D D' : α → Parser → Prop} {M M' : Parser → Prop} {X X' : Prop} {o : Outcome α}

theorem Holds.imp (h : o.Holds D M X) (hD : ∀ a q, D a q → D' a q) (hM : ∀ q, M q → M' q) (hX : X → X') :
    o.Holds D' M' X' := by
  cases o with
  | done a q => exact hD a q h
  | malformed q => exact hM q h
  | exhausted => exact hX h

theorem Holds.and (h : o.Holds D M X) (h' : o.Holds D' M' X') :
    o.Holds (fun a q => D a q ∧ D' a q) (fun q => M q ∧ M' q) (X ∧ X') := by
  cases o <;> exact ⟨h, h'⟩

theorem Holds.of_done {a : α} {q : Parser} (h : o.Holds D M X) (ho : o = .done a q) : D a q := by
  rw [ho] at h; exact h

theorem Holds.of_malformed {q : Parser} (h : o.Holds D M X) (ho : o = .malformed q) : M q := by
  rw [ho] at h; exact h

end Outcome

namespace Parse

variable {α β : Type} {D : β → Parser → Prop} {M : Parser → Prop} {X : Prop} {p : Parser}

/-- A sequence keeps a promise if its first rule keeps one from which the second can go on. -/
theorem holds_bind {x : Parse α} {f : α → Parse β} {C : α → Parser → Prop} {N : Parser → Prop} {Y : Prop}
    (hx : (x p).Holds C N Y) (hM : ∀ q, N q → M q) (hX : Y → X) (hf : ∀ a q, C a q → (f a q).Holds D M X) :
    ((x >>= f) p).Holds D M X := by
  show (andThen x f p).Holds D M X
  unfold andThen
  cases hxp : x p with
  | done a q => rw [hxp] at hx; exact hf a q hx
  | malformed q => rw [hxp] at hx; exact hM q hx
  | exhausted => rw [hxp] at hx; exact hX hx

/-- The same where both rules promise the same of malformed input and of a spent budget. -/
theorem holds_then {x : Parse α} {f : α → Parse β} {C : α → Parser → Prop} (hx : (x p).Holds C M X)
    (hf : ∀ a q, C a q → (f a q).Holds D M X) : ((x >>= f) p).Holds D M X :=
  holds_bind hx (fun _ h => h) id hf

theorem bind_eq_done {x : Parse α} {f : α → Parse β} {b : β} {r : Parser} :
    (x >>= f) p = .done b r ↔ ∃ a q, x p = .done a q ∧ f a q = .done b r := by
  show andThen x f p = .done b r ↔ _
  unfold andThen
  cases x p with
  | done a q => exact ⟨fun h => ⟨a, q, rfl, h⟩, fun ⟨_, _, ha, h⟩ => by cases ha; exact h⟩
  | malformed q => exact ⟨(nomatch ·), fun ⟨_, _, ha, _⟩ => (nomatch ha)⟩
  | exhausted => exact ⟨(nomatch ·), fun ⟨_, _, ha, _⟩ => (nomatch ha)⟩

theorem attempt_done {x : Parse α} {a? : Option α} {q : Parser} (h : attempt x p = .done a? q) :
    (∃ a, a? = some a ∧ x p = .done a q) ∨ (a? = none ∧ x p = .malformed q) := by
  unfold attempt at h
  cases hx : x p with
  | done a r => rw [hx] at h; cases h; exact .inl ⟨a, rfl, rfl⟩
  | malformed r => rw [hx] at h; cases h; exact .inr ⟨rfl, rfl⟩
  | exhausted => rw [hx] at h; cases h

theorem cur_bind (f : Token → Parse β) (p : Parser) : (cur >>= f) p = f p.cur p := rfl

theorem peek_bind (f : Token → Parse β) (p : Parser) : (peek >>= f) p = f p.peek p := rfl

theorem look_bind (g : Parser → α) (f : α → Parse β) (p : Parser) : (look g >>= f) p = f (g p) p := rfl

theorem advance_bind (f : Unit → Parse β) (p : Parser) : (advance >>= f) p = f () p.advance := rfl

theorem resume_bind (d : Int) (f : Unit → Parse β) (p : Parser) : (resume d >>= f) p = f () (p.resume d) := rfl

theorem name_bind (f : Ident → Parse β) (p : Parser) : (name >>= f) p = f ⟨p.cur.pos, p.cur.literal⟩ p := rfl

theorem holds_peekIs_bind {kind : Kind} {f : Bool → Parse β} (ht : p.peek.kind = kind → (f true p).Holds D M X)
    (hf : p.peek.kind ≠ kind → (f false p).Holds D M X) : ((peekIs kind >>= f) p).Holds D M X := by
  show (f (p.peek.kind == kind) p).Holds D M X
  by_cases h : p.peek.kind = kind
  · rw [show (p.peek.kind == kind) = true by simpa using h]; exact ht h
  · rw [show (p.peek.kind == kind) = false by simpa using h]; exact hf h

/-- A look at the next token, and a rule for either answer. -/
theorem holds_peekIs {kind : Kind} {x y : Parse β} (hx : p.peek.kind = kind → (x p).Holds D M X)
    (hy : p.peek.kind ≠ kind → (y p).Holds D M X) :
    ((peekIs kind >>= fun b => if b = true then x else y) p).Holds D M X :=
  holds_peekIs_bind hx hy

theorem holds_expect {kind : Kind} {f : Unit → Parse β}
    (hM : p.peek.kind ≠ kind → M (p.report (.expected kind p.peek.kind)))
    (hf : p.peek.kind = kind → (f () p.advance).Holds D M X) : ((expect kind >>= f) p).Holds D M X := by
  refine holds_bind (C := fun _ q => p.peek.kind = kind ∧ q = p.advance) (N := M) (Y := False) ?_
    (fun _ h => h) False.elim (fun _ q ⟨h, hq⟩ => hq ▸ hf h)
  unfold expect
  by_cases h : p.peek.kind = kind
  · rw [if_pos h]; exact ⟨h, rfl⟩
  · rw [if_neg h]; exact hM h

theorem holds_attempt {x : Parse α} {f : Option α → Parse β} {C : α → Parser → Prop} {N : Parser → Prop} {Y : Prop}
    (hx : (x p).Holds C N Y) (hX : Y → X) (hd : ∀ a q, x p = .done a q → C a q → (f (some a) q).Holds D M X)
    (hm : ∀ q, x p = .malformed q → N q → (f none q).Holds D M X) : ((attempt x >>= f) p).Holds D M X := by
  show (andThen (attempt x) f p).Holds D M X
  unfold andThen attempt
  cases hxp : x p with
  | done a q => rw [hxp] at hx; exact hd a q hxp hx
  | malformed q => rw [hxp] at hx; exact hm q hxp hx
  | exhausted => rw [hxp] at hx; exact hX hx

/-- The marks of a traced rule are all that it adds. -/
theorem holds_traced {rule : Rule} {x : Parse β} {C : β → Parser → Prop} {N : Parser → Prop}
    (hx : (x (p.mark (.enter rule p.cur))).Holds C N X)
    (hD : ∀ b q, C b q → D b (q.mark (.leave rule true))) (hM : ∀ q, N q → M (q.mark (.leave rule false))) :
    (traced rule x p).Holds D M X := by
  unfold traced
  cases hxp : x (p.mark (.enter rule p.cur)) with
  | done b q => rw [hxp] at hx; exact hD b q hx
  | malformed q => rw [hxp] at hx; exact hM q hx
  | exhausted => rw [hxp] at hx; exact hx

end Parse

end Monkey
