import Monkey.Ast.Node
/-!
# Trees at other places

A tree with every place replaced by another one.  Nothing but the places changes: a tree renders as before, and its
operands are those of the tree, relocated.  Places are replaced by a function, so two trees are equal up to places if
some function makes them equal.
-/
namespace Monkey

def Token.relocate (place : Pos → Pos) (t : Token) : Token := { t with pos := place t.pos }

def Ident.relocate (place : Pos → Pos) (id : Ident) : Ident := ⟨place id.pos, id.name⟩

mutual

def Expr.relocate (place : Pos → Pos) : Expr → Expr
  | .ident id => .ident (id.relocate place)
  | .int pos literal value => .int (place pos) literal value
  | .bool pos value => .bool (place pos) value
  | .str pos text => .str (place pos) text
  | .array pos elements => .array (place pos) (Expr.relocateAll place elements)
  | .hash pos pairs => .hash (place pos) (Expr.relocatePairs place pairs)
  | .unary pos op operand => .unary (place pos) op (operand.relocate place)
  | .binary pos op left right => .binary (place pos) op (left.relocate place) (right.relocate place)
  | .cond pos condition consequence none =>
    .cond (place pos) (condition.relocate place) (consequence.relocate place) none
  | .cond pos condition consequence (some alternative) =>
    .cond (place pos) (condition.relocate place) (consequence.relocate place) (some (alternative.relocate place))
  | .fn pos params body => .fn (place pos) (params.map (Ident.relocate place)) (body.relocate place)
  | .call pos callee args => .call (place pos) (callee.relocate place) (Expr.relocateAll place args)
  | .index pos left index => .index (place pos) (left.relocate place) (index.relocate place)

def Expr.relocateAll (place : Pos → Pos) : List Expr → List Expr
  | [] => []
  | e :: rest => e.relocate place :: Expr.relocateAll place rest

def Expr.relocatePairs (place : Pos → Pos) : List (Expr × Expr) → List (Expr × Expr)
  | [] => []
  | (key, value) :: rest => (key.relocate place, value.relocate place) :: Expr.relocatePairs place rest

def Stmt.relocate (place : Pos → Pos) : Stmt → Stmt
  | .expr token value => .expr (token.relocate place) (value.relocate place)
  | .bind pos name value => .bind (place pos) (name.relocate place) (value.relocate place)
  | .ret pos none => .ret (place pos) none
  | .ret pos (some value) => .ret (place pos) (some (value.relocate place))

def Stmt.relocateAll (place : Pos → Pos) : List Stmt → List Stmt
  | [] => []
  | s :: rest => s.relocate place :: Stmt.relocateAll place rest

def Block.relocate (place : Pos → Pos) : Block → Block
  | .mk pos statements => .mk (place pos) (Stmt.relocateAll place statements)

end

def Program.relocate (place : Pos → Pos) (p : Program) : Program :=
  ⟨p.token.relocate place, Stmt.relocateAll place p.statements⟩

def Node.relocate (place : Pos → Pos) : Node → Node
  | program p => program (p.relocate place)
  | block b => block (b.relocate place)
  | stmt s => stmt (s.relocate place)
  | expr e => expr (e.relocate place)

variable (place : Pos → Pos)

@[simp] theorem Token.relocate_kind (t : Token) : (t.relocate place).kind = t.kind := rfl

@[simp] theorem Token.relocate_pos (t : Token) : (t.relocate place).pos = place t.pos := rfl

@[simp] theorem Token.relocate_literal (t : Token) : (t.relocate place).literal = t.literal := rfl

@[simp] theorem Ident.relocate_name (id : Ident) : (id.relocate place).name = id.name := rfl

@[simp] theorem Expr.relocateAll_eq (es : List Expr) : Expr.relocateAll place es = es.map (Expr.relocate place) := by
  induction es with
  | nil => rfl
  | cons e es ih => rw [Expr.relocateAll, ih, List.map_cons]

@[simp] theorem Stmt.relocateAll_eq (ss : List Stmt) : Stmt.relocateAll place ss = ss.map (Stmt.relocate place) := by
  induction ss with
  | nil => rfl
  | cons s ss ih => rw [Stmt.relocateAll, ih, List.map_cons]

@[simp] theorem Expr.relocatePairs_eq (pairs : List (Expr × Expr)) :
    Expr.relocatePairs place pairs = pairs.map fun pair => (pair.1.relocate place, pair.2.relocate place) := by
  induction pairs with
  | nil => rfl
  | cons pair pairs ih => rw [Expr.relocatePairs, ih, List.map_cons]

theorem Expr.relocate_cond (pos : Pos) (condition : Expr) (consequence : Block) (alternative : Option Block) :
    (Expr.cond pos condition consequence alternative).relocate place =
      .cond (place pos) (condition.relocate place) (consequence.relocate place)
        (alternative.map (Block.relocate place)) := by
  cases alternative <;> rfl

@[simp] theorem Block.relocate_statements (b : Block) :
    (b.relocate place).statements = b.statements.map (Stmt.relocate place) := by
  cases b with
  | mk pos statements => exact Stmt.relocateAll_eq place statements

@[simp] theorem Program.relocate_statements (p : Program) :
    (p.relocate place).statements = p.statements.map (Stmt.relocate place) :=
  Stmt.relocateAll_eq place p.statements

/-! ## Where everything is stays where it is -/

@[simp] theorem Token.relocate_id (t : Token) : t.relocate id = t := rfl

@[simp] theorem Ident.relocate_id : Ident.relocate id = id := rfl

mutual

@[simp] theorem Expr.relocate_id : ∀ e : Expr, e.relocate id = e
  | .ident _ | .int _ _ _ | .bool _ _ | .str _ _ => rfl
  | .array _ elements => by rw [Expr.relocate, Expr.relocateAll_id elements]; rfl
  | .hash _ pairs => by rw [Expr.relocate, Expr.relocatePairs_id pairs]; rfl
  | .unary _ _ operand => by rw [Expr.relocate, operand.relocate_id]; rfl
  | .binary _ _ left right => by rw [Expr.relocate, left.relocate_id, right.relocate_id]; rfl
  | .cond _ condition consequence none => by
    rw [Expr.relocate, condition.relocate_id, consequence.relocate_id]; rfl
  | .cond _ condition consequence (some alternative) => by
    rw [Expr.relocate, condition.relocate_id, consequence.relocate_id, alternative.relocate_id]; rfl
  | .fn _ params body => by rw [Expr.relocate, body.relocate_id, Ident.relocate_id, List.map_id]; rfl
  | .call _ callee args => by rw [Expr.relocate, callee.relocate_id, Expr.relocateAll_id args]; rfl
  | .index _ left index => by rw [Expr.relocate, left.relocate_id, index.relocate_id]; rfl

theorem Expr.relocateAll_id : ∀ es : List Expr, Expr.relocateAll id es = es
  | [] => rfl
  | e :: es => by rw [Expr.relocateAll, e.relocate_id, Expr.relocateAll_id es]

theorem Expr.relocatePairs_id : ∀ pairs : List (Expr × Expr), Expr.relocatePairs id pairs = pairs
  | [] => rfl
  | (key, value) :: pairs => by
    rw [Expr.relocatePairs, key.relocate_id, value.relocate_id, Expr.relocatePairs_id pairs]

@[simp] theorem Stmt.relocate_id : ∀ s : Stmt, s.relocate id = s
  | .expr _ value => by rw [Stmt.relocate, value.relocate_id]; rfl
  | .bind _ _ value => by rw [Stmt.relocate, value.relocate_id]; rfl
  | .ret _ none => rfl
  | .ret _ (some value) => by rw [Stmt.relocate, value.relocate_id]; rfl

theorem Stmt.relocateAll_id : ∀ ss : List Stmt, Stmt.relocateAll id ss = ss
  | [] => rfl
  | s :: ss => by rw [Stmt.relocateAll, s.relocate_id, Stmt.relocateAll_id ss]

@[simp] theorem Block.relocate_id : ∀ b : Block, b.relocate id = b
  | .mk _ statements => by rw [Block.relocate, Stmt.relocateAll_id statements]; rfl

end

@[simp] theorem Program.relocate_id (p : Program) : p.relocate id = p := by
  rw [Program.relocate, Stmt.relocateAll_id]
  rfl

@[simp] theorem Node.relocate_id (nd : Node) : nd.relocate id = nd := by
  cases nd with
  | program p => rw [Node.relocate, p.relocate_id]
  | block b => rw [Node.relocate, b.relocate_id]
  | stmt s => rw [Node.relocate, s.relocate_id]
  | expr e => rw [Node.relocate, e.relocate_id]

/-! ## One relocation after the other -/

section

variable (place' : Pos → Pos)

mutual

theorem Expr.relocate_relocate : ∀ e : Expr, (e.relocate place).relocate place' = e.relocate (place' ∘ place)
  | .ident _ | .int _ _ _ | .bool _ _ | .str _ _ => rfl
  | .array _ elements => by simp only [Expr.relocate, Expr.relocateAll_relocateAll elements, Function.comp_apply]
  | .hash _ pairs => by simp only [Expr.relocate, Expr.relocatePairs_relocatePairs pairs, Function.comp_apply]
  | .unary _ _ operand => by simp only [Expr.relocate, operand.relocate_relocate, Function.comp_apply]
  | .binary _ _ left right => by
    simp only [Expr.relocate, left.relocate_relocate, right.relocate_relocate, Function.comp_apply]
  | .cond _ condition consequence none => by
    simp only [Expr.relocate, condition.relocate_relocate, consequence.relocate_relocate, Function.comp_apply]
  | .cond _ condition consequence (some alternative) => by
    simp only [Expr.relocate, condition.relocate_relocate, consequence.relocate_relocate,
      alternative.relocate_relocate, Function.comp_apply]
  | .fn _ params body => by
    simp only [Expr.relocate, body.relocate_relocate, List.map_map, Function.comp_apply]
    rfl
  | .call _ callee args => by
    simp only [Expr.relocate, callee.relocate_relocate, Expr.relocateAll_relocateAll args, Function.comp_apply]
  | .index _ left index => by
    simp only [Expr.relocate, left.relocate_relocate, index.relocate_relocate, Function.comp_apply]

theorem Expr.relocateAll_relocateAll : ∀ es : List Expr,
    Expr.relocateAll place' (Expr.relocateAll place es) = Expr.relocateAll (place' ∘ place) es
  | [] => rfl
  | e :: es => by simp only [Expr.relocateAll, e.relocate_relocate, Expr.relocateAll_relocateAll es]

theorem Expr.relocatePairs_relocatePairs : ∀ pairs : List (Expr × Expr),
    Expr.relocatePairs place' (Expr.relocatePairs place pairs) = Expr.relocatePairs (place' ∘ place) pairs
  | [] => rfl
  | (key, value) :: pairs => by
    simp only [Expr.relocatePairs, key.relocate_relocate, value.relocate_relocate,
      Expr.relocatePairs_relocatePairs pairs]

theorem Stmt.relocate_relocate : ∀ s : Stmt, (s.relocate place).relocate place' = s.relocate (place' ∘ place)
  | .expr _ value => by simp only [Stmt.relocate, value.relocate_relocate]; rfl
  | .bind _ _ value => by simp only [Stmt.relocate, value.relocate_relocate]; rfl
  | .ret _ none => rfl
  | .ret _ (some value) => by simp only [Stmt.relocate, value.relocate_relocate]; rfl

theorem Stmt.relocateAll_relocateAll : ∀ ss : List Stmt,
    Stmt.relocateAll place' (Stmt.relocateAll place ss) = Stmt.relocateAll (place' ∘ place) ss
  | [] => rfl
  | s :: ss => by simp only [Stmt.relocateAll, s.relocate_relocate, Stmt.relocateAll_relocateAll ss]

theorem Block.relocate_relocate : ∀ b : Block, (b.relocate place).relocate place' = b.relocate (place' ∘ place)
  | .mk _ statements => by simp only [Block.relocate, Stmt.relocateAll_relocateAll statements]; rfl

end

end

/-! ## Rendering -/

mutual

@[simp] theorem Expr.render_relocate : ∀ e : Expr, (e.relocate place).render = e.render
  | .ident _ | .int _ _ _ | .bool _ _ | .str _ _ => rfl
  | .array _ elements => by simp only [Expr.relocate, Expr.render, Expr.renderAll_relocate elements]
  | .hash _ pairs => by simp only [Expr.relocate, Expr.render, Expr.renderPairs_relocate pairs]
  | .unary _ _ operand => by simp only [Expr.relocate, Expr.render, operand.render_relocate]
  | .binary _ _ left right => by simp only [Expr.relocate, Expr.render, left.render_relocate, right.render_relocate]
  | .cond _ condition consequence none => by
    simp only [Expr.relocate, Expr.render, condition.render_relocate, consequence.render_relocate]
  | .cond _ condition consequence (some alternative) => by
    simp only [Expr.relocate, Expr.render, condition.render_relocate, consequence.render_relocate,
      alternative.render_relocate]
  | .fn _ params body => by
    simp only [Expr.relocate, Expr.render, body.render_relocate, List.map_map]
    rfl
  | .call _ callee args => by
    simp only [Expr.relocate, Expr.render, callee.render_relocate, Expr.renderAll_relocate args]
  | .index _ left index => by simp only [Expr.relocate, Expr.render, left.render_relocate, index.render_relocate]

theorem Expr.renderAll_relocate : ∀ es : List Expr, Expr.renderAll (Expr.relocateAll place es) = Expr.renderAll es
  | [] => rfl
  | e :: es => by simp only [Expr.relocateAll, Expr.renderAll, e.render_relocate, Expr.renderAll_relocate es]

theorem Expr.renderPairs_relocate : ∀ pairs : List (Expr × Expr),
    Expr.renderPairs (Expr.relocatePairs place pairs) = Expr.renderPairs pairs
  | [] => rfl
  | (key, value) :: pairs => by
    simp only [Expr.relocatePairs, Expr.renderPairs, key.render_relocate, value.render_relocate,
      Expr.renderPairs_relocate pairs]

@[simp] theorem Stmt.render_relocate : ∀ s : Stmt, (s.relocate place).render = s.render
  | .expr _ value => by simp only [Stmt.relocate, Stmt.render, value.render_relocate]
  | .bind _ _ value => by simp only [Stmt.relocate, Stmt.render, value.render_relocate, Ident.relocate_name]
  | .ret _ none => rfl
  | .ret _ (some value) => by simp only [Stmt.relocate, Stmt.render, value.render_relocate]

theorem Stmt.renderAll_relocate : ∀ ss : List Stmt, Stmt.renderAll (Stmt.relocateAll place ss) = Stmt.renderAll ss
  | [] => rfl
  | s :: ss => by simp only [Stmt.relocateAll, Stmt.renderAll, s.render_relocate, Stmt.renderAll_relocate ss]

@[simp] theorem Block.render_relocate : ∀ b : Block, (b.relocate place).render = b.render
  | .mk _ [] => rfl
  | .mk _ (s :: ss) => by
    have h := Stmt.renderAll_relocate (s :: ss)
    simp only [Stmt.relocateAll] at h
    simp only [Block.relocate, Stmt.relocateAll, Block.render, h]

end

end Monkey
