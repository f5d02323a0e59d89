import Monkey.Ast.Node
/-!
# Walks

A walk visits a node and then walks over its children, in source order and one level deeper (`Node.walk_eq`).  What is
said of trees and their walks goes from the children of a node to the node (`Node.ofChildren`).
-/
namespace Monkey

theorem Expr.walkAll_eq (depth : Int) (es : List Expr) :
    Expr.walkAll depth es = (es.map Node.expr).flatMap (Node.walk depth) := by
  induction es with
  | nil => rfl
  | cons e es ih => rw [Expr.walkAll, ih, List.map_cons, List.flatMap_cons, Node.walk]

theorem Expr.walkPairs_eq (depth : Int) (pairs : List (Expr × Expr)) :
    Expr.walkPairs depth pairs =
      (pairs.flatMap fun pair => [Node.expr pair.1, Node.expr pair.2]).flatMap (Node.walk depth) := by
  induction pairs with
  | nil => rfl
  | cons pair pairs ih =>
    rw [Expr.walkPairs, ih]
    simp [Node.walk]

theorem Stmt.walkAll_eq (depth : Int) (ss : List Stmt) :
    Stmt.walkAll depth ss = (ss.map Node.stmt).flatMap (Node.walk depth) := by
  induction ss with
  | nil => rfl
  | cons st ss ih => rw [Stmt.walkAll, ih, List.map_cons, List.flatMap_cons, Node.walk]

/-- A walk visits a node and then walks over its children, one level deeper. -/
theorem Node.walk_eq (depth : Int) (nd : Node) :
    nd.walk depth = (depth, nd) :: nd.children.flatMap (Node.walk (depth + 1)) := by
  have hident (id : Ident) : Node.walk (depth + 1) (.ident id) = [(depth + 1, .ident id)] := rfl
  cases nd with
  | program p => rw [walk, Stmt.walkAll_eq, children]
  | block b =>
    cases b with
    | mk pos statements => rw [walk, Block.walk, Stmt.walkAll_eq, children, Block.statements]
  | stmt st =>
    cases st with
    | ret pos value => cases value <;> simp [walk, Stmt.walk, children]
    | bind pos name value =>
      simp only [children, List.flatMap_cons, List.flatMap_nil, hident, List.append_nil]
      rfl
    | expr token value => simp [walk, Stmt.walk, children]
  | expr e =>
    cases e with
    | array pos elements => rw [walk, Expr.walk, Expr.walkAll_eq, children]
    | hash pos pairs => rw [walk, Expr.walk, Expr.walkPairs_eq, children]
    | cond pos condition consequence alternative => cases alternative <;> simp [walk, Expr.walk, children]
    | fn pos params body =>
      simp only [children, List.flatMap_append, List.flatMap_map, List.flatMap_singleton, hident, ← List.map_eq_flatMap]
      rfl
    | call pos callee args => simp [walk, Expr.walk, Expr.walkAll_eq, children]
    | _ => simp [walk, Expr.walk, children]

/-- Induction over trees: what holds of a node whenever it holds of its children holds of every node. -/
theorem Node.ofChildren {P : Node → Prop} (h : ∀ nd, (∀ child ∈ nd.children, P child) → P nd) : ∀ nd, P nd := by
  -- the walk over a child is shorter, at whatever depth it begins
  suffices hlength : ∀ (n : Nat) (depth : Int) (nd : Node), (nd.walk depth).length ≤ n → P nd from
    fun nd => hlength _ 0 nd (Nat.le_refl _)
  intro n
  induction n with
  | zero =>
    intro depth nd hn
    rw [Node.walk_eq] at hn
    cases hn
  | succ n ih =>
    intro depth nd hn
    refine h nd fun child hchild => ih (depth + 1) child ?_
    obtain ⟨pre, post, hsplit⟩ := List.append_of_mem hchild
    rw [Node.walk_eq, hsplit, List.flatMap_append, List.flatMap_cons, List.length_cons, List.length_append,
      List.length_append] at hn
    omega

/-- What passes from a node to its children holds of every node on its walk. -/
theorem Node.forall_mem_walk {P : Node → Prop} (hP : ∀ nd, P nd → ∀ child ∈ nd.children, P child) {nd : Node} :
    ∀ {depth : Int}, P nd → ∀ q ∈ nd.walk depth, P q.2 := by
  induction nd using Node.ofChildren with
  | h nd ih =>
    intro depth hnd q hq
    rw [Node.walk_eq] at hq
    rcases List.mem_cons.1 hq with rfl | hq
    · exact hnd
    · obtain ⟨child, hchild, hq⟩ := List.mem_flatMap.1 hq
      exact ih child hchild (hP nd hnd child hchild) q hq

/-- A walk does not come back above the depth where it begins. -/
theorem Node.le_of_mem_walk {nd : Node} : ∀ {depth : Int}, ∀ q ∈ nd.walk depth, depth ≤ q.1 := by
  induction nd using Node.ofChildren with
  | h nd ih =>
    intro depth q hq
    rw [Node.walk_eq] at hq
    rcases List.mem_cons.1 hq with rfl | hq
    · exact Int.le_refl _
    · obtain ⟨child, hchild, hq⟩ := List.mem_flatMap.1 hq
      have := ih child hchild q hq
      omega

end Monkey
