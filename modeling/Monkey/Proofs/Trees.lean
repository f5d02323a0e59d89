import Monkey.Ast.Basic
/-!
# Syntax trees can be compared

Whether two trees are the same, places included, is found out by walking both.
-/
namespace Monkey

mutual

/-- Whether two expressions are the same, places included. -/
def Expr.same : Expr → Expr → Bool
  | .ident id, .ident id' => id = id'
  | .int pos literal n, .int pos' literal' n' => pos = pos' && literal = literal' && n = n'
  | .bool pos b, .bool pos' b' => pos = pos' && b = b'
  | .str pos text, .str pos' text' => pos = pos' && text = text'
  | .array pos es, .array pos' es' => pos = pos' && Expr.sameAll es es'
  | .hash pos pairs, .hash pos' pairs' => pos = pos' && Expr.samePairs pairs pairs'
  | .unary pos op e, .unary pos' op' e' => pos = pos' && op = op' && e.same e'
  | .binary pos op a b, .binary pos' op' a' b' => pos = pos' && op = op' && a.same a' && b.same b'
  | .cond pos c b a, .cond pos' c' b' a' => pos = pos' && c.same c' && b.same b' && Block.same? a a'
  | .fn pos params b, .fn pos' params' b' => pos = pos' && params = params' && b.same b'
  | .call pos f args, .call pos' f' args' => pos = pos' && f.same f' && Expr.sameAll args args'
  | .index pos a i, .index pos' a' i' => pos = pos' && a.same a' && i.same i'
  | _, _ => false

def Expr.sameAll : List Expr → List Expr → Bool
  | [], [] => true
  | e :: es, e' :: es' => e.same e' && Expr.sameAll es es'
  | _, _ => false

def Expr.samePairs : List (Expr × Expr) → List (Expr × Expr) → Bool
  | [], [] => true
  | (k, v) :: pairs, (k', v') :: pairs' => k.same k' && v.same v' && Expr.samePairs pairs pairs'
  | _, _ => false

def Expr.same? : Option Expr → Option Expr → Bool
  | none, none => true
  | some e, some e' => e.same e'
  | _, _ => false

def Stmt.same : Stmt → Stmt → Bool
  | .expr token e, .expr token' e' => token = token' && e.same e'
  | .bind pos x e, .bind pos' x' e' => pos = pos' && x = x' && e.same e'
  | .ret pos e, .ret pos' e' => pos = pos' && Expr.same? e e'
  | _, _ => false

def Stmt.sameAll : List Stmt → List Stmt → Bool
  | [], [] => true
  | st :: ss, st' :: ss' => st.same st' && Stmt.sameAll ss ss'
  | _, _ => false

def Block.same : Block → Block → Bool
  | .mk pos ss, .mk pos' ss' => pos = pos' && Stmt.sameAll ss ss'

def Block.same? : Option Block → Option Block → Bool
  | none, none => true
  | some b, some b' => b.same b'
  | _, _ => false

end

mutual

theorem Expr.same_iff : ∀ (e e' : Expr), e.same e' = true ↔ e = e'
  | .array pos es, e' => by cases e' <;> simp [Expr.same, Expr.sameAll_iff es]
  | .hash pos pairs, e' => by cases e' <;> simp [Expr.same, Expr.samePairs_iff pairs]
  | .unary pos op e, e' => by cases e' <;> simp [Expr.same, and_assoc, Expr.same_iff e]
  | .binary pos op a b, e' => by cases e' <;> simp [Expr.same, and_assoc, Expr.same_iff a, Expr.same_iff b]
  | .cond pos c b a, e' => by
    cases e' <;> simp [Expr.same, and_assoc, Expr.same_iff c, Block.same_iff b, Block.same?_iff a]
  | .fn pos params b, e' => by cases e' <;> simp [Expr.same, and_assoc, Block.same_iff b]
  | .call pos f args, e' => by
    cases e' <;> simp [Expr.same, and_assoc, Expr.same_iff f, Expr.sameAll_iff args]
  | .index pos a i, e' => by cases e' <;> simp [Expr.same, and_assoc, Expr.same_iff a, Expr.same_iff i]
  | .ident _, e' | .int _ _ _, e' | .bool _ _, e' | .str _ _, e' => by cases e' <;> simp [Expr.same, and_assoc]

theorem Expr.sameAll_iff : ∀ (es es' : List Expr), Expr.sameAll es es' = true ↔ es = es'
  | [], es' => by cases es' <;> simp [Expr.sameAll]
  | e :: es, es' => by cases es' <;> simp [Expr.sameAll, Expr.same_iff e, Expr.sameAll_iff es]

theorem Expr.samePairs_iff : ∀ (pairs pairs' : List (Expr × Expr)), Expr.samePairs pairs pairs' = true ↔ pairs = pairs'
  | [], pairs' => by cases pairs' <;> simp [Expr.samePairs]
  | (k, v) :: pairs, pairs' => by
    rcases pairs' with _ | ⟨⟨k', v'⟩, pairs'⟩ <;>
      simp [Expr.samePairs, Expr.same_iff k, Expr.same_iff v, Expr.samePairs_iff pairs]

theorem Expr.same?_iff : ∀ (e e' : Option Expr), Expr.same? e e' = true ↔ e = e'
  | none, e' => by cases e' <;> simp [Expr.same?]
  | some e, e' => by cases e' <;> simp [Expr.same?, Expr.same_iff e]

theorem Stmt.same_iff : ∀ (st st' : Stmt), st.same st' = true ↔ st = st'
  | .expr token e, st' => by cases st' <;> simp [Stmt.same, Expr.same_iff e]
  | .bind pos x e, st' => by cases st' <;> simp [Stmt.same, and_assoc, Expr.same_iff e]
  | .ret pos e, st' => by cases st' <;> simp [Stmt.same, Expr.same?_iff e]

theorem Stmt.sameAll_iff : ∀ (ss ss' : List Stmt), Stmt.sameAll ss ss' = true ↔ ss = ss'
  | [], ss' => by cases ss' <;> simp [Stmt.sameAll]
  | st :: ss, ss' => by cases ss' <;> simp [Stmt.sameAll, Stmt.same_iff st, Stmt.sameAll_iff ss]

theorem Block.same_iff : ∀ (b b' : Block), b.same b' = true ↔ b = b'
  | .mk pos ss, .mk pos' ss' => by simp [Block.same, Stmt.sameAll_iff ss]

theorem Block.same?_iff : ∀ (b b' : Option Block), Block.same? b b' = true ↔ b = b'
  | none, b' => by cases b' <;> simp [Block.same?]
  | some b, b' => by cases b' <;> simp [Block.same?, Block.same_iff b]

end

instance : DecidableEq Expr := fun e e' => decidable_of_iff _ (e.same_iff e')

instance : DecidableEq Stmt := fun st st' => decidable_of_iff _ (st.same_iff st')

instance : DecidableEq Block := fun b b' => decidable_of_iff _ (b.same_iff b')

instance : DecidableEq Program := fun p p' =>
  decidable_of_iff (p.token = p'.token ∧ p.statements = p'.statements) (by cases p; cases p'; simp)

end Monkey
