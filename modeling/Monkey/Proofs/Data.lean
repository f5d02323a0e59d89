import Mathlib.Algebra.Order.BigOperators.Group.List
import Monkey.Proofs.Lookup
import Monkey.Proofs.Room
import Monkey.Proofs.Roundtrip
import Monkey.Proofs.Words
/-!
# Printed data reads back

Integers, booleans, and arrays and hashes of them are printed as literals of the language: what the parser makes of the
text evaluates to the same data again (`Value.Data.reads_back`).  The printed form is not the canonical rendering of a
tree, because a negative number is printed without parentheses; but a minus sign binds tighter than whatever stands
around it in an array or a hash.
-/
namespace Monkey

/-! ## Dictionaries and numbers -/

namespace Dict

variable {κ ν : Type} [BEq κ] [LawfulBEq κ]

theorem insert_of_not_mem {key : κ} (value : ν) : ∀ {dict : List (κ × ν)}, key ∉ dict.map (·.1) →
    insert key value dict = dict ++ [(key, value)]
  | [], _ => rfl
  | e :: dict, h => by
    rw [List.map_cons, List.mem_cons, not_or] at h
    rw [insert, if_neg fun he => h.1 (eq_of_beq he).symm, insert_of_not_mem value h.2]
    rfl

/-- Entries under different keys are a dictionary. -/
theorem ofEntries_of_nodup {entries : List (κ × ν)} (h : (entries.map (·.1)).Nodup) : ofEntries entries = entries := by
  induction entries using List.reverseRecOn with
  | nil => rfl
  | append_singleton entries e ih =>
    rw [List.map_append, List.nodup_append] at h
    rw [ofEntries_concat, ih h.1]
    exact insert_of_not_mem _ fun hmem => h.2.2 e.1 hmem e.1 (by simp) rfl

end Dict

theorem isNumber_decimal (n : Nat) : isNumber (Text.decimal n) = true := by
  have hdigits : ∀ c ∈ Nat.toDigits 10 n, Text.isDigit c = true := fun c hc => by
    have hdigit := Nat.isDigit_of_mem_toDigits (by decide) (by decide) hc
    simpa [Char.isDigit, Text.isDigit, Char.le_def] using hdigit
  unfold isNumber Text.decimal Text.isDigits
  rw [String.toList_ofList]
  split
  · exact absurd ‹_› Nat.toDigits_ne_nil
  · rename_i c w htext
    rw [htext] at hdigits
    simpa using hdigits

theorem integer?_decimal {n : Nat} (h : n < 2 ^ 63) : Parse.integer? (Text.decimal n) = some n := by
  have hlength : (Nat.toDigits 10 n).length ≤ Parse.maxDigits :=
    Nat.le_trans ((Nat.length_toDigits_le_iff (k := 19) (by decide) (by decide)).2 (by omega)) (by decide)
  have hvalue : Text.ofDigits (Nat.toDigits 10 n) = n := by
    have hfold : Nat.ofDigitChars 10 (Nat.toDigits 10 n) 0 = Text.ofDigits (Nat.toDigits 10 n) :=
      Nat.ofDigitChars_eq_foldl
    rwa [Nat.ofDigitChars_ten_toDigits, eq_comm] at hfold
  have hle : n ≤ Parse.maxInteger := by
    unfold Parse.maxInteger
    omega
  have hdigits : Text.isDigits (Nat.toDigits 10 n) = true := by
    simpa [isNumber, Text.decimal] using isNumber_decimal n
  simp [Parse.integer?, Text.decimal, hdigits, hlength, hvalue, hle]

/-! ## Data -/

/-- A key that is printed as a literal. -/
inductive Key.Data : Key → Prop
  | int {n : Int} (hlow : -2 ^ 63 < n) (hhigh : n < 2 ^ 63) : Data (.int n)
  | bool (b : Bool) : Data (.bool b)

/-- An integer whose literal is in range, a boolean, or an array or a hash of such; a hash has a key only once. -/
inductive Value.Data : Value → Prop
  | int {n : Int} (hlow : -2 ^ 63 < n) (hhigh : n < 2 ^ 63) : Data (.int n)
  | bool (b : Bool) : Data (.bool b)
  | array (id : Identity) {elements : List Value} (h : ∀ v ∈ elements, Data v) : Data (.array id elements)
  | hash (id : Identity) {pairs : List (Key × Value)} (hkeys : (pairs.map (·.1)).Nodup)
      (hkey : ∀ e ∈ pairs, e.1.Data) (h : ∀ e ∈ pairs, Data e.2) : Data (.hash id pairs)

namespace Value

mutual

/-- A value without the identities in it, which is all that structural equality looks at. -/
def bare : Value → Value
  | array _ elements => array 0 (bareAll elements)
  | hash _ pairs => hash 0 (barePairs pairs)
  | fn _ params body scope => fn 0 params body scope
  | ret _ v => ret 0 v.bare
  | error _ fault => error 0 fault
  | v => v

def bareAll : List Value → List Value
  | [] => []
  | v :: vs => v.bare :: bareAll vs

def barePairs : List (Key × Value) → List (Key × Value)
  | [] => []
  | (key, v) :: pairs => (key, v.bare) :: barePairs pairs

end

theorem bareAll_eq (vs : List Value) : bareAll vs = vs.map bare := by
  induction vs with
  | nil => rfl
  | cons v vs ih => rw [bareAll, ih, List.map_cons]

theorem barePairs_eq (pairs : List (Key × Value)) : barePairs pairs = pairs.map fun e => (e.1, e.2.bare) := by
  induction pairs with
  | nil => rfl
  | cons e pairs ih => rw [barePairs, ih, List.map_cons]

theorem isSignal_bare (v : Value) : v.bare.isSignal = v.isSignal := by cases v <;> rfl

theorem isError_bare (v : Value) : v.bare.isError = v.isError := by cases v <;> rfl

theorem Data.isSignal {v : Value} (h : v.Data) : v.isSignal = false := by cases h <;> rfl

theorem renderAll_eq (vs : List Value) : renderAll vs = vs.map render := by
  induction vs with
  | nil => rfl
  | cons v vs ih => rw [renderAll, ih, List.map_cons]

theorem renderPairs_eq (pairs : List (Key × Value)) :
    renderPairs pairs = pairs.map fun e => e.1.render ++ ": " ++ e.2.render := by
  induction pairs with
  | nil => rfl
  | cons e pairs ih => rw [renderPairs, ih, List.map_cons]

theorem render_array (id : Identity) (elements : List Value) :
    (array id elements).render = "[" ++ ", ".intercalate (elements.map render) ++ "]" := by
  rw [← renderAll_eq]
  rfl

theorem render_hash (id : Identity) (pairs : List (Key × Value)) : (hash id pairs).render =
    "\x7b" ++ ", ".intercalate (pairs.map fun e => e.1.render ++ ": " ++ e.2.render) ++ "\x7d" := by
  rw [← renderPairs_eq]
  rfl

end Value

/-! ## The literals that data is printed as -/

/-- An integer as it is printed: a literal, behind a minus sign if it is negative. -/
def intLiteral (n : Int) : Expr :=
  if n < 0 then .unary .start .minus (.int .start (Text.decimal n.natAbs) n.natAbs)
  else .int .start (Text.decimal n.natAbs) n.natAbs

def Key.literal : Key → Expr
  | int n => intLiteral n
  | bool b => .bool .start b
  | str s => .str .start s

namespace Value

mutual

/-- The literal that data is printed as; other values have none. -/
def literal : Value → Expr
  | int n => intLiteral n
  | bool b => .bool .start b
  | array _ elements => .array .start (literalAll elements)
  | hash _ pairs => .hash .start (literalPairs pairs)
  | _ => .str .start ""

def literalAll : List Value → List Expr
  | [] => []
  | v :: vs => v.literal :: literalAll vs

def literalPairs : List (Key × Value) → List (Expr × Expr)
  | [] => []
  | (key, v) :: pairs => (key.literal, v.literal) :: literalPairs pairs

end

theorem literalAll_eq (vs : List Value) : literalAll vs = vs.map literal := by
  induction vs with
  | nil => rfl
  | cons v vs ih => rw [literalAll, ih, List.map_cons]

theorem literalPairs_eq (pairs : List (Key × Value)) :
    literalPairs pairs = pairs.map fun e => (e.1.literal, e.2.literal) := by
  induction pairs with
  | nil => rfl
  | cons e pairs ih => rw [literalPairs, ih, List.map_cons]

end Value

mutual

/-- The lexemes of a literal without parentheses around a minus sign. -/
def Expr.plain : Expr → List Lexeme
  | .unary _ op operand => .fixed op.kind :: operand.plain
  | .array _ elements => .fixed .lbracket :: (joined .comma (Expr.plainAll elements) ++ [.fixed .rbracket])
  | .hash _ pairs => .fixed .lbrace :: (joined .comma (Expr.plainPairs pairs) ++ [.fixed .rbrace])
  | e => e.spell

def Expr.plainAll : List Expr → List (List Lexeme)
  | [] => []
  | e :: es => e.plain :: Expr.plainAll es

def Expr.plainPairs : List (Expr × Expr) → List (List Lexeme)
  | [] => []
  | (key, value) :: pairs => (key.plain ++ .fixed .colon :: value.plain) :: Expr.plainPairs pairs

end

theorem Expr.plainAll_eq (es : List Expr) : Expr.plainAll es = es.map Expr.plain := by
  induction es with
  | nil => rfl
  | cons e es ih => rw [Expr.plainAll, ih, List.map_cons]

theorem Expr.plainPairs_eq (pairs : List (Expr × Expr)) :
    Expr.plainPairs pairs = pairs.map (spelledPair Expr.plain) := by
  induction pairs with
  | nil => rfl
  | cons e pairs ih => rw [Expr.plainPairs, ih, List.map_cons]; rfl

/-! ## Reading -/

theorem readsBack_intLiteral {n : Int} (hlow : -2 ^ 63 < n) (hhigh : n < 2 ^ 63) :
    (intLiteral n).ReadsBack (intLiteral n).plain := by
  have hvalue : Parse.integer? (Text.decimal n.natAbs) = some n.natAbs := integer?_decimal (by omega)
  unfold intLiteral
  by_cases hn : n < 0
  · rw [if_pos hn]
    exact ⟨_, (Expr.climbs_int hvalue).unary (by decide)⟩
  · rw [if_neg hn]
    exact ⟨_, Expr.climbs_int hvalue⟩

theorem scans_intLiteral (n : Int) : Scans (Text.signedDecimal n) (intLiteral n).plain := by
  have hnumber := scans_number (isNumber_decimal n.natAbs)
  unfold Text.signedDecimal intLiteral
  by_cases hn : n < 0
  · rw [if_pos hn, if_pos hn]
    refine ⟨by simp [hnumber.noTab], fun rest hrest => ?_⟩
    have hminus := scan_delimiter (c := '-') ((Text.decimal n.natAbs).toList ++ rest) rfl (by decide)
    rw [hnumber.scan rest hrest] at hminus
    simpa [Expr.plain, Expr.spell, UnaryOp.kind] using hminus
  · rw [if_neg hn, if_neg hn]
    exact hnumber

theorem scans_bool (b : Bool) : Scans (if b then "true" else "false") (Expr.bool .start b).plain :=
  Expr.scans (e := .bool .start b) rfl

theorem Key.Data.readsBack {key : Key} (h : key.Data) : key.literal.ReadsBack key.literal.plain := by
  cases h with
  | int hlow hhigh => exact readsBack_intLiteral hlow hhigh
  | bool b => exact ⟨_, Expr.climbs_bool⟩

theorem Key.Data.scans {key : Key} (h : key.Data) : Scans key.render key.literal.plain := by
  cases h with
  | int => exact scans_intLiteral _
  | bool b => exact scans_bool b

namespace Value.Data

theorem readsBack {v : Value} (h : v.Data) : v.literal.ReadsBack v.literal.plain := by
  induction h with
  | int hlow hhigh => exact readsBack_intLiteral hlow hhigh
  | bool b => exact ⟨_, Expr.climbs_bool⟩
  | array id h ih =>
    rw [literal, Expr.plain, Expr.plainAll_eq, literalAll_eq]
    exact ⟨_, Expr.climbs_array (List.forall_mem_map.2 ih)⟩
  | hash id hkeys hkey h ih =>
    rw [literal, Expr.plain, Expr.plainPairs_eq, literalPairs_eq]
    exact ⟨_, Expr.climbs_hash (List.forall_mem_map.2 fun e he => ⟨(hkey e he).readsBack, ih e he⟩)⟩

theorem scans {v : Value} (h : v.Data) : Scans v.render v.literal.plain := by
  induction h with
  | int => exact scans_intLiteral _
  | bool b => exact scans_bool b
  | array id h ih =>
    have he := scans_commas ih
    rw [literal, Expr.plain, Expr.plainAll_eq, literalAll_eq, render_array, List.map_map]
    generalize ", ".intercalate _ = text at he
    exact ⟨by simp [he.noTab], fun rest _ => by simp [he.scan, Piece.isWordChar, Function.comp_def]⟩
  | @hash id pairs hkeys hkey h ih =>
    have hpair (e : Key × Value) (he : e ∈ pairs) : Scans (e.1.render ++ ": " ++ e.2.render)
        (spelledPair Expr.plain (e.1.literal, e.2.literal)) := by
      have hkey := (hkey e he).scans
      have hvalue := ih e he
      refine ⟨by simp [hkey.noTab, hvalue.noTab], fun rest hrest => ?_⟩
      simp [spelledPair, hkey.scan, hvalue.scan rest hrest, scan_space, Piece.isWordChar]
    have he := scans_commas hpair
    rw [literal, Expr.plain, Expr.plainPairs_eq, literalPairs_eq, render_hash, List.map_map]
    generalize ", ".intercalate _ = text at he
    exact ⟨by simp [he.noTab], fun rest _ => by simp [he.scan, Piece.isWordChar, Function.comp_def]⟩

/-- The parser makes of printed data its literal. -/
theorem parse_printed {v : Value} (h : v.Data) :
    (parse v.render).diagnostics = [] ∧
      (parse v.render).program.erase = [.expr (.atEnd .start) v.literal.erase] := by
  have hlexemes := h.scans.scan [] clear_nil
  rw [List.append_nil, scan_nil, List.append_nil] at hlexemes
  have hread : ∀ st ∈ [Stmt.expr (.atEnd .start) v.literal], st.ReadsBack v.literal.plain :=
    List.forall_mem_singleton.2 h.readsBack.statement
  exact Parsed.readsBack hread ((lexeme_ofSource h.scans.noTab).trans (hlexemes.trans (by simp [joined])))

end Value.Data

/-! ## Evaluating -/

namespace Expr

variable {e : Expr}

theorem of_erase_int {literal : String} {n : Nat} (h : e.erase = .int .start literal n) : ∃ pos, e = .int pos literal n := by
  cases e with
  | int pos literal' n' => simpa [erase] using h
  | cond pos condition consequence alternative => cases alternative <;> simp [erase] at h
  | _ => simp [erase] at h

theorem of_erase_bool {b : Bool} (h : e.erase = .bool .start b) : ∃ pos, e = .bool pos b := by
  cases e with
  | bool pos b' => simpa [erase] using h
  | cond pos condition consequence alternative => cases alternative <;> simp [erase] at h
  | _ => simp [erase] at h

theorem of_erase_unary {op : UnaryOp} {operand : Expr} (h : e.erase = .unary .start op operand) :
    ∃ pos operand', e = .unary pos op operand' ∧ operand'.erase = operand := by
  cases e with
  | unary pos op' operand' =>
    simp only [erase, unary.injEq, true_and] at h
    exact ⟨pos, operand', by rw [h.1], h.2⟩
  | cond pos condition consequence alternative => cases alternative <;> simp [erase] at h
  | _ => simp [erase] at h

theorem of_erase_array {es : List Expr} (h : e.erase = .array .start es) :
    ∃ pos es', e = .array pos es' ∧ es'.map erase = es := by
  cases e with
  | array pos es' =>
    simp only [erase, array.injEq, true_and, eraseAll_eq] at h
    exact ⟨pos, es', rfl, h⟩
  | cond pos condition consequence alternative => cases alternative <;> simp [erase] at h
  | _ => simp [erase] at h

theorem erasePairs_eq (entries : List (Expr × Expr)) : erasePairs entries = entries.map fun e => (e.1.erase, e.2.erase) := by
  induction entries with
  | nil => rfl
  | cons e entries ih => rw [erasePairs, ih, List.map_cons]

theorem of_erase_hash {entries : List (Expr × Expr)} (h : e.erase = .hash .start entries) :
    ∃ pos entries', e = .hash pos entries' ∧ (entries'.map fun e => (e.1.erase, e.2.erase)) = entries := by
  cases e with
  | hash pos entries' =>
    simp only [erase, hash.injEq, true_and, erasePairs_eq] at h
    exact ⟨pos, entries', rfl, h⟩
  | cond pos condition consequence alternative => cases alternative <;> simp [erase] at h
  | _ => simp [erase] at h

end Expr

open Eval

theorem settles_intLiteral {n : Int} (hlow : -2 ^ 63 < n) (hhigh : n < 2 ^ 63) {e : Expr}
    (he : e.erase = (intLiteral n).erase) (s : ScopeId) (w : World) :
    ∃ w', Settles (fun m => evaluate m (.expr e) s) w (.int n) w' := by
  unfold intLiteral at he
  by_cases hn : n < 0
  · rw [if_pos hn] at he
    obtain ⟨pos, operand, rfl, hoperand⟩ := Expr.of_erase_unary he
    obtain ⟨pos', rfl⟩ := Expr.of_erase_int hoperand
    have hneg : -(n.natAbs : Int) = n := by omega
    have hwrap : Arith.wrap n = n := Arith.wrap_of_isWord ⟨by omega, by omega⟩
    refine ⟨_, (settles_int pos' _ n.natAbs s _).unary rfl ?_⟩
    simp only [Value.applyUnary, hneg, hwrap]
  · rw [if_neg hn] at he
    obtain ⟨pos, rfl⟩ := Expr.of_erase_int he
    have hnat : (n.natAbs : Int) = n := by omega
    exact ⟨_, hnat ▸ settles_int pos _ n.natAbs s w⟩

/-- Every expression that is the literal of a value up to places settles at a value that is structurally equal. -/
def Value.Evaluates (v : Value) : Prop :=
  ∀ e : Expr, e.erase = v.literal.erase → ∀ s w,
    ∃ v' w', Settles (fun m => evaluate m (.expr e) s) w v' w' ∧ v'.bare = v.bare

theorem Key.Data.evaluates {key : Key} (h : key.Data) (e : Expr) (he : e.erase = key.literal.erase) (s : ScopeId)
    (w : World) : ∃ w', Settles (fun m => evaluate m (.expr e) s) w key.toValue w' := by
  cases h with
  | int hlow hhigh => exact settles_intLiteral hlow hhigh he s w
  | bool b =>
    obtain ⟨pos, rfl⟩ := Expr.of_erase_bool he
    exact ⟨_, settles_bool pos b s w⟩

theorem Value.evaluates_all : ∀ {vs : List Value}, (∀ v ∈ vs, v.Data) → (∀ v ∈ vs, v.Evaluates) →
    ∀ es : List Expr, es.map Expr.erase = (vs.map literal).map Expr.erase → ∀ s w,
      ∃ vs' w', Settles (fun m => expressions (evaluate m) s es) w (.ok vs') w' ∧ vs'.map bare = vs.map bare
  | [], _, _, [], _, s, w => ⟨[], w, settles_expressions_nil s w, rfl⟩
  | v :: vs, hdata, h, e :: es, hes, s, w => by
    simp only [List.map_cons, List.cons.injEq] at hes
    obtain ⟨v', w₁, hv, hbare⟩ := h v List.mem_cons_self e hes.1 s w
    obtain ⟨vs', w₂, hvs, hbares⟩ := evaluates_all (fun u hu => hdata u (List.mem_cons_of_mem _ hu))
      (fun u hu => h u (List.mem_cons_of_mem _ hu)) es hes.2 s w₁
    have herror : v'.isError = false := by
      rw [← isError_bare, hbare, isError_bare]
      exact isError_of_not_isSignal (hdata v List.mem_cons_self).isSignal
    exact ⟨v' :: vs', w₂, hv.expressions_cons herror hvs, by simp [hbare, hbares]⟩

theorem Value.evaluates_pairs : ∀ {pairs : List (Key × Value)}, (∀ e ∈ pairs, e.1.Data) → (∀ e ∈ pairs, e.2.Data) →
    (∀ e ∈ pairs, e.2.Evaluates) → ∀ entries : List (Expr × Expr),
    (entries.map fun e => (e.1.erase, e.2.erase)) = pairs.map (fun e => (e.1.literal.erase, e.2.literal.erase)) →
    ∀ s w done, ∃ (pairs' : List (Key × Value)) (w' : World),
      Settles (fun m => Eval.pairs (evaluate m) s done entries) w
        (.ok (pairs'.foldl (fun dict e => Dict.insert e.1 e.2 dict) done)) w' ∧
      (pairs'.map fun e => (e.1, e.2.bare)) = pairs.map fun e => (e.1, e.2.bare)
  | [], _, _, _, [], _, s, w, done => ⟨[], w, settles_pure _ _, rfl⟩
  | (key, v) :: pairs, hkeys, hdata, h, (ke, ve) :: entries, hentries, s, w, done => by
    simp only [List.map_cons, List.cons.injEq, Prod.mk.injEq] at hentries
    obtain ⟨w₁, hk⟩ := (hkeys _ List.mem_cons_self).evaluates ke hentries.1.1 s w
    obtain ⟨v', w₂, hv, hbare⟩ := h _ List.mem_cons_self ve hentries.1.2 s w₁
    obtain ⟨pairs', w₃, hrest, hbares⟩ := evaluates_pairs (fun e he => hkeys e (List.mem_cons_of_mem _ he))
      (fun e he => hdata e (List.mem_cons_of_mem _ he)) (fun e he => h e (List.mem_cons_of_mem _ he)) entries
      hentries.2 s w₂ (Dict.insert key v' done)
    have herror : v'.isError = false := by
      rw [← isError_bare, hbare, isError_bare]
      exact isError_of_not_isSignal (hdata _ List.mem_cons_self).isSignal
    have hkey : key.toValue.isError = false ∧ key.toValue.key? = some key := by cases key <;> exact ⟨rfl, rfl⟩
    exact ⟨(key, v') :: pairs', w₃, hk.pairs_cons hkey.1 hkey.2 hv herror hrest, by simp [hbare, hbares]⟩

theorem Value.Data.evaluates {v : Value} (h : v.Data) : v.Evaluates := by
  induction h with
  | int hlow hhigh =>
    intro e he s w
    obtain ⟨w', hw'⟩ := settles_intLiteral hlow hhigh he s w
    exact ⟨_, w', hw', rfl⟩
  | bool b =>
    intro e he s w
    obtain ⟨pos, rfl⟩ := Expr.of_erase_bool he
    exact ⟨_, _, settles_bool pos b s w, rfl⟩
  | array id h ih =>
    intro e he s w
    rw [literal, Expr.erase, Expr.eraseAll_eq, literalAll_eq] at he
    obtain ⟨pos, es, rfl, hes⟩ := Expr.of_erase_array he
    obtain ⟨vs, w', hvs, hbare⟩ := evaluates_all h ih es hes s _
    exact ⟨_, _, hvs.array, by rw [bare, bare, bareAll_eq, bareAll_eq, hbare]⟩
  | @hash id pairs hkeys hkey h ih =>
    intro e he s w
    rw [literal, Expr.erase, Expr.erasePairs_eq, literalPairs_eq, List.map_map] at he
    obtain ⟨pos, entries, rfl, hentries⟩ := Expr.of_erase_hash he
    obtain ⟨pairs', w', hpairs, hbare⟩ := evaluates_pairs hkey h ih entries hentries s _ []
    have hnodup : (pairs'.map (·.1)).Nodup := by
      have hsame := congrArg (List.map Prod.fst) hbare
      simp only [List.map_map, Function.comp_def] at hsame
      rwa [hsame]
    have hdict : pairs'.foldl (fun dict e => Dict.insert e.1 e.2 dict) [] = pairs' := Dict.ofEntries_of_nodup hnodup
    rw [hdict] at hpairs
    exact ⟨_, _, hpairs.hash, by rw [bare, bare, barePairs_eq, barePairs_eq, hbare]⟩

/-- The statements that are one expression statement up to places. -/
theorem Program.of_erase_expr {p : Program} {t : Token} {e : Expr} (h : p.erase = [.expr t e]) :
    ∃ t' e', p.statements = [.expr t' e'] ∧ e'.erase = e := by
  obtain ⟨token, statements⟩ := p
  rw [erase, Stmt.eraseAll_eq] at h
  obtain ⟨st, rest, rfl, hst, hrest⟩ := List.map_eq_cons_iff.1 h
  rw [List.map_eq_nil_iff.1 hrest]
  cases st with
  | expr t' e' =>
    simp only [Stmt.erase, Stmt.expr.injEq] at hst
    exact ⟨t', e', rfl, hst.2⟩
  | bind pos name value => simp [Stmt.erase] at hst
  | ret pos value => cases value <;> simp [Stmt.erase] at hst

/-- **Printed data reads back.**  The printed form of any data, however deep, parses without diagnostics, and with room
enough the program evaluates, in whatever scope, to structurally equal data: the same integers and booleans, in arrays
and hashes alike, and the pairs of each hash in the same order. -/
theorem Value.Data.reads_back {v : Value} (h : v.Data) :
    (parse v.render).diagnostics = [] ∧ ∀ (s : ScopeId) (w : World), ∃ (v' : Value) (w' : World) (n : Nat),
      (∀ m, n ≤ m → evaluate m (.program (parse v.render).program) s w = .value v' w') ∧ v'.bare = v.bare := by
  obtain ⟨hnone, herase⟩ := h.parse_printed
  refine ⟨hnone, fun s w => ?_⟩
  obtain ⟨t, e, hstatements, he⟩ := Program.of_erase_expr herase
  obtain ⟨v', w', hv', hbare⟩ := h.evaluates e he s
    (entered (.stmt (.expr t e)) s (entered (.program (parse v.render).program) s w))
  have hunwrap : v'.unwrap = v' := by
    apply unwrap_of_not_isSignal
    rw [← isSignal_bare, hbare, isSignal_bare]
    exact h.isSignal
  have hrun := Settles.program (p := (parse v.render).program) (hstatements ▸ hv'.statement.statements_last)
  rw [hunwrap] at hrun
  obtain ⟨n, hn⟩ := hrun
  exact ⟨v', _, n, hn, hbare⟩

/-- A negative number, and a hash with an array in it, in an array. -/
theorem Value.Data.reads_back_nested : (parse "[-5, \x7btrue: [0]\x7d]").diagnostics = [] ∧
    ∃ (v' : Value) (w' : World) (n : Nat),
      (∀ m, n ≤ m → evaluate m (.program (parse "[-5, \x7btrue: [0]\x7d]").program) 0 Session.start.world =
        .value v' w') ∧
      v'.bare = .array 0 [.int (-5), .hash 0 [(.bool true, .array 0 [.int 0])]] := by
  have hzero : (Value.array 3 [.int 0]).Data := .array 3 (by simpa using Value.Data.int (by decide) (by decide))
  have hhash : (Value.hash 4 [(.bool true, .array 3 [.int 0])]).Data :=
    .hash 4 (by simp) (by simpa using Key.Data.bool true) (by simpa using hzero)
  have hdata : (Value.array 5 [.int (-5), .hash 4 [(.bool true, .array 3 [.int 0])]]).Data :=
    .array 5 (by simpa using ⟨Value.Data.int (by decide) (by decide), hhash⟩)
  have hrender : (Value.array 5 [.int (-5), .hash 4 [(.bool true, .array 3 [.int 0])]]).render =
      "[-5, \x7btrue: [0]\x7d]" := by decide +kernel
  obtain ⟨hnone, hruns⟩ := hdata.reads_back
  rw [hrender] at hnone hruns
  exact ⟨hnone, hruns 0 Session.start.world⟩

end Monkey
