import Monkey.Proofs.Words
/-!
# Arithmetic of machine words

Integers compute as the words of a 64-bit machine with two's complement do (`Arith.machine`): sums, differences,
products and negation modulo 2^64, quotients rounded toward zero, comparisons of signed words
(`Arith.words_compute_as_machine`).  Both steps on the way have a meaning for integers of any size: wrapping chooses the
only word that is congruent, and a quotient is the only one whose remainder is smaller than the divisor and does not
change the sign of the dividend.
-/
namespace Monkey.Arith

/-! ## Wrapping -/

/-- The lowest 64 bits with their sign are the balanced remainder modulo 2^64, for which a machine word stands. -/
theorem wrap_eq_bmod (n : Int) : wrap n = n.bmod (2 ^ 64) := by
  rw [wrap_eq, Int.bmod_def]
  rfl

theorem wrap_eq_toInt (n : Int) : wrap n = (BitVec.ofInt 64 n).toInt := by
  rw [wrap_eq_bmod, BitVec.toInt_ofInt]

theorem wrap_congr {m n : Int} (h : m % 2 ^ 64 = n % 2 ^ 64) : wrap m = wrap n := by
  rw [wrap_eq, wrap_eq, h]

theorem wrap_emod (n : Int) : wrap n % 2 ^ 64 = n % 2 ^ 64 := by
  rw [wrap_eq]
  split <;> omega

/-- Wrapping gives the only word that is congruent modulo 2^64. -/
theorem isWord_congr_iff (n m : Int) : IsWord m ∧ m % 2 ^ 64 = n % 2 ^ 64 ↔ m = wrap n := by
  refine ⟨fun ⟨hm, hmod⟩ => ?_, fun h => ?_⟩
  · rw [← wrap_congr hmod, wrap_of_isWord hm]
  · subst h
    exact ⟨isWord_wrap n, wrap_emod n⟩

/-- A word is what a machine word stands for. -/
theorem toInt_of_isWord {n : Int} (h : IsWord n) : (BitVec.ofInt 64 n).toInt = n := by
  rw [← wrap_eq_toInt, wrap_of_isWord h]

/-! ## Quotients -/

/-- The quotient leaves a remainder that is smaller than the divisor, and zero or of the sign of the dividend. -/
def Truncates (a b q : Int) : Prop := ∃ m, a = q * b + m ∧ m.natAbs < b.natAbs ∧ (m = 0 ∨ m.sign = a.sign)

theorem truncates_tdiv (a : Int) {b : Int} (hb : b ≠ 0) : Truncates a b (a.tdiv b) := by
  refine ⟨a.tmod b, ?_, ?_, ?_⟩
  · have := Int.tmod_add_tdiv_mul a b
    omega
  · rw [Int.natAbs_tmod]
    exact Nat.mod_lt _ (Int.natAbs_pos.2 hb)
  · rw [Int.sign_tmod]
    split
    · rename_i hdvd
      exact .inl (Int.tmod_eq_zero_of_dvd hdvd)
    · exact .inr rfl

/-- There is only one such quotient. -/
theorem Truncates.eq_tdiv {a b q : Int} (h : Truncates a b q) : q = a.tdiv b := by
  obtain ⟨m, ha, hm, hsign⟩ := h
  have hb : b ≠ 0 := fun hb => by simp [hb] at hm
  have hsum : m + b * q = a := by rw [ha, Int.mul_comm]; omega
  rcases Int.le_total 0 a with hnonneg | hneg
  · have hm0 : 0 ≤ m := by
      rcases hsign with rfl | hsign
      · exact Int.le_refl 0
      · exact Int.sign_nonneg_iff.1 (hsign ▸ Int.sign_nonneg_iff.2 hnonneg)
    exact ((Int.tdiv_tmod_unique hnonneg hb).2 ⟨hsum, hm0, by omega⟩).1.symm
  · have hm0 : m ≤ 0 := by
      rcases hsign with rfl | hsign
      · exact Int.le_refl 0
      · exact Int.sign_nonpos_iff.1 (hsign ▸ Int.sign_nonpos_iff.2 hneg)
    exact ((Int.tdiv_tmod_unique' hneg hb).2 ⟨hsum, by omega, hm0⟩).1.symm

/-- The quotient of the absolute values, with the sign that the operands give it, is rounded toward zero. -/
theorem quotient?_eq_tdiv (a : Int) {b : Int} (hb : b ≠ 0) : quotient? a b = some (a.tdiv b) := by
  rw [quotient?, if_neg hb]
  refine congrArg some ?_
  have hnonneg (k : Nat) : decide (Int.ofNat k < 0) = false := decide_eq_false (Int.not_lt.2 (Int.natCast_nonneg k))
  have hneg (k : Nat) : decide (Int.negSucc k < 0) = true := decide_eq_true (Int.negSucc_lt_zero k)
  cases a with
  | ofNat m =>
    cases b with
    | ofNat k => rw [hnonneg, hnonneg, if_pos rfl]; rfl
    | negSucc k => rw [hnonneg, hneg, if_neg nofun]; rfl
  | negSucc m =>
    cases b with
    | ofNat k => rw [hneg, hnonneg, if_neg nofun]; rfl
    | negSucc k => rw [hneg, hneg, if_pos rfl]; rfl

theorem quotient?_spec (a : Int) {b : Int} (hb : b ≠ 0) :
    ∃ q, quotient? a b = some q ∧ ∀ q', Truncates a b q' ↔ q' = q :=
  ⟨a.tdiv b, quotient?_eq_tdiv a hb, fun _ => ⟨fun h => h.eq_tdiv, fun h => h ▸ truncates_tdiv a hb⟩⟩

/-! ## Operators -/

/-- What a machine gives for an operator on two words; it has no quotient by zero. -/
def machine (op : BinaryOp) (x y : BitVec 64) : Except Fault Value :=
  match op with
  | .add => .ok (.int (x + y).toInt)
  | .sub => .ok (.int (x - y).toInt)
  | .mul => .ok (.int (x * y).toInt)
  | .div => if y = 0 then .error (.divisionByZero x.toInt) else .ok (.int (x.sdiv y).toInt)
  | .lt => .ok (.bool (x.slt y))
  | .gt => .ok (.bool (y.slt x))
  | .eq => .ok (.bool (x == y))
  | .notEq => .ok (.bool (x != y))

theorem toInt_beq (x y : BitVec 64) : (x.toInt == y.toInt) = (x == y) := by
  rw [Bool.eq_iff_iff, beq_iff_eq, beq_iff_eq, BitVec.toInt_inj]

theorem toInt_eq_zero (x : BitVec 64) : x.toInt = 0 ↔ x = 0 := BitVec.toInt_inj (y := 0)

/-- Operators on what words stand for are those of the machine. -/
theorem applyInt_toInt (op : BinaryOp) (x y : BitVec 64) : Value.applyInt op x.toInt y.toInt = machine op x y := by
  cases op with
  | add => rw [machine, Value.applyInt, wrap_eq_bmod, BitVec.toInt_add]
  | sub => rw [machine, Value.applyInt, wrap_eq_bmod, BitVec.toInt_sub]
  | mul => rw [machine, Value.applyInt, wrap_eq_bmod, BitVec.toInt_mul]
  | div =>
    rw [machine, Value.applyInt]
    by_cases hy : y = 0
    · rw [if_pos hy, quotient?, if_pos ((toInt_eq_zero y).2 hy)]
    · rw [if_neg hy, quotient?_eq_tdiv _ fun h => hy ((toInt_eq_zero y).1 h)]
      dsimp only
      rw [wrap_eq_bmod, BitVec.toInt_sdiv]
  | lt => rw [machine, BitVec.slt_eq_decide]; rfl
  | gt => rw [machine, BitVec.slt_eq_decide]; rfl
  | eq => rw [machine, ← toInt_beq]; rfl
  | notEq => rw [machine, bne, ← toInt_beq]; rfl

theorem ofSpelling?_spelling (op : BinaryOp) : BinaryOp.ofSpelling? op.spelling = some op := by
  cases op <;> decide

/-- **Integers compute as machine words do.**  An operator on two words, or one given by its spelling, gives what the
machine gives for them, and an error instead of a quotient by zero; negation is that of the machine.  Wrapping gives,
for an integer of any size, the only word that is congruent modulo 2^64; and integers of any size have exactly one
truncated quotient by anything but zero, which is the one computed. -/
theorem words_compute_as_machine :
    (∀ a b, IsWord a → IsWord b →
      (∀ op : BinaryOp, Value.applyBinary op (.int a) (.int b) = machine op (.ofInt 64 a) (.ofInt 64 b) ∧
        Value.applyBinarySpelled op.spelling (.int a) (.int b) = machine op (.ofInt 64 a) (.ofInt 64 b)) ∧
      Value.applyUnary .minus (.int a) = .ok (.int (-BitVec.ofInt 64 a).toInt)) ∧
    (∀ n m, IsWord m ∧ m % 2 ^ 64 = n % 2 ^ 64 ↔ m = wrap n) ∧
    ∀ a b, b ≠ 0 → ∃ q, quotient? a b = some q ∧ ∀ q', Truncates a b q' ↔ q' = q := by
  refine ⟨fun a b ha hb => ?_, isWord_congr_iff, fun a b hb => quotient?_spec a hb⟩
  have hbinary (op : BinaryOp) :
      Value.applyBinary op (.int a) (.int b) = machine op (.ofInt 64 a) (.ofInt 64 b) := by
    rw [← applyInt_toInt, toInt_of_isWord ha, toInt_of_isWord hb]
    cases op <;> rfl
  refine ⟨fun op => ⟨hbinary op, ?_⟩, ?_⟩
  · rw [Value.applyBinarySpelled, ofSpelling?_spelling]
    exact hbinary op
  · rw [BitVec.toInt_neg, toInt_of_isWord ha, ← wrap_eq_bmod]
    rfl

/-- The quotient that is no word, the least word by the negative one, is the least word again. -/
theorem words_compute_as_machine_least :
    IsWord (-2 ^ 63) ∧ IsWord (-1) ∧ (3 : Int) ≠ 0 ∧
      Value.applyBinary .div (.int (-2 ^ 63)) (.int (-1)) = .ok (.int (-2 ^ 63)) ∧
      Value.applyUnary .minus (.int (-2 ^ 63)) = .ok (.int (-2 ^ 63)) ∧
      ∃ q, quotient? (-7) 3 = some q ∧ ∀ q', Truncates (-7) 3 q' ↔ q' = q := by
  have hleast : IsWord (-2 ^ 63) := ⟨by decide, by decide⟩
  have hone : IsWord (-1) := ⟨by decide, by decide⟩
  obtain ⟨hbinary, hunary⟩ := words_compute_as_machine.1 (-2 ^ 63) (-1) hleast hone
  refine ⟨hleast, hone, by decide, ?_, ?_, words_compute_as_machine.2.2 (-7) 3 (by decide)⟩
  · rw [(hbinary .div).1]
    rfl
  · rw [hunary]
    rfl

end Monkey.Arith
