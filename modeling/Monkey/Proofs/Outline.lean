import Mathlib.Data.List.Forall2
import Mathlib.Data.List.Nodup
import Monkey.Proofs.Literals
import Monkey.Proofs.Roundtrip
import Monkey.Proofs.Walks
/-!
# Printed trees

A tree is printed with one line per node, indented by depth.  Nothing of a tree is left out and nothing is there twice:
the children of a node are its parts, whatever its class (`Node.part?`), and a walk passes through the places of a tree
(`Node.at?`) in their lexicographic order, so each node is before everything below it and what lies below one child is
before the next child.  No rendering goes over a line, so the lines of a printed tree are its nodes, and their
indentation gives back the places (`Outline.read`).
-/
namespace Monkey

/-! ## The parts of a node -/

/-- What a part is to the node that it is a part of. -/
inductive Node.Role
  | statement (i : Nat) | expression | name | value | element (i : Nat) | key (i : Nat) | entry (i : Nat) | operand
  | left | right | condition | consequence | alternative | parameter (i : Nat) | body | callee | argument (i : Nat)
  | index

namespace Node

/-- The part of a node in a role, if the node has one. -/
def part? : Node → Role → Option Node
  | program p, .statement i => p.statements[i]?.map stmt
  | block b, .statement i => b.statements[i]?.map stmt
  | stmt (.expr _ value), .expression => some (expr value)
  | stmt (.bind _ name _), .name => some (ident name)
  | stmt (.bind _ _ value), .value => some (expr value)
  | stmt (.ret _ value), .value => value.map expr
  | expr (.array _ elements), .element i => elements[i]?.map expr
  | expr (.hash _ pairs), .key i => pairs[i]?.map fun pair => expr pair.1
  | expr (.hash _ pairs), .entry i => pairs[i]?.map fun pair => expr pair.2
  | expr (.unary _ _ operand), .operand => some (expr operand)
  | expr (.binary _ _ left _), .left => some (expr left)
  | expr (.binary _ _ _ right), .right => some (expr right)
  | expr (.cond _ condition _ _), .condition => some (expr condition)
  | expr (.cond _ _ consequence _), .consequence => some (block consequence)
  | expr (.cond _ _ _ alternative), .alternative => alternative.map block
  | expr (.fn _ params _), .parameter i => params[i]?.map ident
  | expr (.fn _ _ body), .body => some (block body)
  | expr (.call _ callee _), .callee => some (expr callee)
  | expr (.call _ _ args), .argument i => args[i]?.map expr
  | expr (.index _ left _), .left => some (expr left)
  | expr (.index _ _ index), .index => some (expr index)
  | _, _ => none

/-- The roles that a node has parts in, in source order. -/
def roles : Node → List Role
  | program p => (List.range p.statements.length).map .statement
  | block b => (List.range b.statements.length).map .statement
  | stmt (.expr _ _) => [.expression]
  | stmt (.bind _ _ _) => [.name, .value]
  | stmt (.ret _ value) => value.toList.map fun _ => .value
  | expr (.array _ elements) => (List.range elements.length).map .element
  | expr (.hash _ pairs) => (List.range pairs.length).flatMap fun i => [.key i, .entry i]
  | expr (.unary _ _ _) => [.operand]
  | expr (.binary _ _ _ _) => [.left, .right]
  | expr (.cond _ _ _ alternative) => .condition :: .consequence :: alternative.toList.map fun _ => .alternative
  | expr (.fn _ params _) => (List.range params.length).map .parameter ++ [.body]
  | expr (.call _ _ args) => .callee :: (List.range args.length).map .argument
  | expr (.index _ _ _) => [.left, .index]
  | expr _ => []

/-- The elements by their numbers, in order. -/
theorem map_range_getElem? {α : Type} (as : List α) : (List.range as.length).map (as[·]?) = as.map some := by
  apply List.ext_getElem
  · simp
  · intro i hi hi'
    simp at hi'
    simp [hi']

theorem map_range_part {α : Type} (f : α → Node) (as : List α) :
    (List.range as.length).map (fun i => as[i]?.map f) = (as.map f).map some := by
  simpa [Function.comp_def] using congrArg (List.map (Option.map f)) (map_range_getElem? as)

theorem roles_nodup (nd : Node) : nd.roles.Nodup := by
  have hrange {f : Nat → Role} (n : Nat) (hf : Function.Injective f) : ((List.range n).map f).Nodup :=
    List.Nodup.map hf List.nodup_range
  cases nd with
  | program p => exact hrange _ fun _ _ => by simp
  | block b => exact hrange _ fun _ _ => by simp
  | stmt st =>
    cases st with
    | ret pos value => cases value <;> simp [roles]
    | _ => simp [roles]
  | expr e =>
    cases e with
    | array pos elements => exact hrange _ fun _ _ => by simp
    | hash pos pairs =>
      refine List.nodup_flatMap.2 ⟨fun i _ => by simp, ?_⟩
      refine List.Pairwise.imp ?_ List.nodup_range
      intro i j hij
      simp [Function.onFun, Ne.symm hij]
    | cond pos condition consequence alternative => cases alternative <;> simp [roles]
    | fn pos params body => simpa [roles] using List.nodup_append.2 ⟨hrange _ fun _ _ => by simp, by simp, by simp⟩
    | call pos callee args => simpa [roles] using hrange _ fun _ _ => by simp
    | _ => simp [roles]

theorem mem_roles (nd : Node) (role : Role) : role ∈ nd.roles ↔ (nd.part? role).isSome = true := by
  cases nd with
  | program p => cases role <;> simp [roles, part?]
  | block b => cases role <;> simp [roles, part?]
  | stmt st =>
    cases st with
    | ret pos value => cases role <;> cases value <;> simp [roles, part?]
    | _ => cases role <;> simp [roles, part?]
  | expr e =>
    cases e with
    | cond pos condition consequence alternative => cases role <;> cases alternative <;> simp [roles, part?]
    | _ => cases role <;> simp [roles, part?]

theorem map_roles (nd : Node) : nd.roles.map nd.part? = nd.children.map some := by
  cases nd with
  | program p => simpa [roles, children, part?, Function.comp_def] using map_range_part stmt p.statements
  | block b => simpa [roles, children, part?, Function.comp_def] using map_range_part stmt b.statements
  | stmt st =>
    cases st with
    | ret pos value => cases value <;> rfl
    | _ => rfl
  | expr e =>
    cases e with
    | array pos elements => simpa [roles, children, part?, Function.comp_def] using map_range_part expr elements
    | hash pos pairs =>
      have hpairs := congrArg (List.flatMap fun pair : Option (Expr × Expr) =>
        [pair.map fun pair => expr pair.1, pair.map fun pair => expr pair.2]) (map_range_getElem? pairs)
      simpa [roles, children, part?, List.map_flatMap, List.flatMap_map] using hpairs
    | cond pos condition consequence alternative => cases alternative <;> rfl
    | fn pos params body => simpa [roles, children, part?, Function.comp_def] using map_range_part ident params
    | call pos callee args => simpa [roles, children, part?, Function.comp_def] using map_range_part expr args
    | _ => rfl

/-! ## The places of a tree -/

/-- The node at a place, which is told by the numbers of the children on the way to it. -/
def at? : Node → List Nat → Option Node
  | nd, [] => some nd
  | nd, i :: place => nd.children[i]?.bind fun child => child.at? place

end Node

namespace Outline

/-- The place so many levels below the root that comes next behind a place. -/
def next (place : List Nat) (level : Nat) : List Nat := place.take level ++ [place[level]?.elim 0 (· + 1)]

/-- The places of a tree from those depths that are behind a place; the depth of the root is given. -/
def readFrom (root : Int) : List Nat → List Int → List (List Nat)
  | _, [] => []
  | place, depth :: depths =>
    next place (depth - root - 1).toNat :: readFrom root (next place (depth - root - 1).toNat) depths

/-- The places of a tree, read back from the depths of its nodes in order. -/
def read : List Int → List (List Nat)
  | [] => []
  | root :: depths => [] :: readFrom root [] depths

theorem next_append (base rest : List Nat) : next (base ++ rest) base.length = base ++ [rest.head?.elim 0 (· + 1)] := by
  cases rest <;> simp [next]

/-- The places below some trees, the first of which has a number. -/
def under : Nat → List (List (List Nat)) → List (List Nat)
  | _, [] => []
  | i, places :: rest => places.map (i :: ·) ++ under (i + 1) rest

theorem le_of_mem_under : ∀ {i : Nat} {trees : List (List (List Nat))} {place : List Nat}, place ∈ under i trees →
    ∃ j rest, place = j :: rest ∧ i ≤ j
  | i, places :: trees, place, h => by
    rcases List.mem_append.1 h with h | h
    · obtain ⟨rest, -, rfl⟩ := List.mem_map.1 h
      exact ⟨i, rest, rfl, Nat.le_refl i⟩
    · obtain ⟨j, rest, rfl, hij⟩ := le_of_mem_under h
      exact ⟨j, rest, rfl, by omega⟩

theorem under_sorted : ∀ {i : Nat} {trees : List (List (List Nat))}, (∀ places ∈ trees, places.Pairwise (· < ·)) →
    (under i trees).Pairwise (· < ·)
  | _, [], _ => .nil
  | i, places :: trees, h => by
    refine List.pairwise_append.2 ⟨?_, under_sorted fun t ht => h t (List.mem_cons_of_mem _ ht), ?_⟩
    · refine List.pairwise_map.2 ((h places List.mem_cons_self).imp fun hlt => ?_)
      exact List.cons_lt_cons_iff.2 (.inr ⟨rfl, hlt⟩)
    · intro place hplace place' hplace'
      obtain ⟨rest, -, rfl⟩ := List.mem_map.1 hplace
      obtain ⟨j, rest', rfl, hij⟩ := le_of_mem_under hplace'
      exact List.cons_lt_cons_iff.2 (.inl (by omega))

end Outline

open Outline

/-- The places of a tree, in the order in which a walk passes through them. -/
structure Node.Places (nd : Node) (places : List (List Nat)) : Prop where
  sorted : places.Pairwise (· < ·)
  mem : ∀ place, place ∈ places ↔ (nd.at? place).isSome = true
  walk : ∀ depth : Int, List.Forall₂ (fun place q => nd.at? place = some q.2 ∧ q.1 = depth + place.length) places
    (nd.walk depth)
  read : ∀ depth : Int, Outline.read ((nd.walk depth).map (·.1)) = places
  /-- The tree lies as the child with a number below a node.  Reading its depths gives its places, whatever is read
  after it. -/
  readFrom : ∀ (root : Int) (base place : List Nat) (i : Nat) (depths : List Int), next place base.length = base ++ [i] →
    ∃ rest, Outline.readFrom root place ((nd.walk (root + base.length + 1)).map (·.1) ++ depths) =
      places.map (base ++ i :: ·) ++ Outline.readFrom root (base ++ i :: rest) depths

namespace Node.Places

variable {children : List Node} {trees : List (List (List Nat))}

theorem mem_under (h : List.Forall₂ Places children trees) (i : Nat) (place : List Nat) :
    place ∈ under i trees ↔
      ∃ j rest, place = (i + j) :: rest ∧ (children[j]?.bind fun child => child.at? rest).isSome = true := by
  induction h generalizing i with
  | nil => simp [under]
  | @cons child places children trees hchild _ ih =>
    rw [under, List.mem_append, ih, List.mem_map]
    constructor
    · rintro (⟨rest, hrest, rfl⟩ | ⟨j, rest, rfl, hj⟩)
      · exact ⟨0, rest, rfl, by simpa using (hchild.mem rest).1 hrest⟩
      · exact ⟨j + 1, rest, by congr 1; omega, by simpa using hj⟩
    · rintro ⟨j, rest, rfl, hj⟩
      cases j with
      | zero => exact .inl ⟨rest, (hchild.mem rest).2 (by simpa using hj), rfl⟩
      | succ j => exact .inr ⟨j, rest, by congr 1; omega, by simpa using hj⟩

theorem walk_under (h : List.Forall₂ Places children trees) (depth : Int) (i : Nat) :
    List.Forall₂ (fun place q => ∃ j rest, place = (i + j) :: rest ∧
      (children[j]?.bind fun child => child.at? rest) = some q.2 ∧ q.1 = depth + rest.length)
      (under i trees) (children.flatMap (Node.walk depth)) := by
  induction h generalizing i with
  | nil => exact .nil
  | @cons child places children trees hchild _ ih =>
    rw [under, List.flatMap_cons]
    refine List.rel_append ?_ ((ih (i + 1)).imp ?_)
    · refine List.forall₂_map_left_iff.2 ((hchild.walk depth).imp fun place q hq => ?_)
      exact ⟨0, place, rfl, by simpa using hq.1, hq.2⟩
    · rintro place q ⟨j, rest, rfl, hj, hdepth⟩
      exact ⟨j + 1, rest, by congr 1; omega, by simpa using hj, hdepth⟩

theorem read_under (h : List.Forall₂ Places children trees) (root : Int) (base : List Nat) (depths : List Int)
    (i : Nat) (before : List Nat) (hbefore : next (base ++ before) base.length = base ++ [i]) :
    ∃ rest, Outline.readFrom root (base ++ before)
        ((children.flatMap (Node.walk (root + base.length + 1))).map (·.1) ++ depths) =
      (under i trees).map (base ++ ·) ++ Outline.readFrom root (base ++ rest) depths := by
  induction h generalizing i before with
  | nil => exact ⟨before, by simp [under]⟩
  | @cons child places children trees hchild _ ih =>
    obtain ⟨rest, hread⟩ := hchild.readFrom root base (base ++ before) i
      ((children.flatMap (Node.walk (root + base.length + 1))).map (·.1) ++ depths) hbefore
    obtain ⟨rest', hread'⟩ := ih (i + 1) (i :: rest) (next_append base (i :: rest))
    refine ⟨rest', ?_⟩
    rw [List.flatMap_cons, List.map_append, List.append_assoc, hread, hread', under, List.map_append, List.map_map,
      List.append_assoc]
    rfl

/-- The places of a tree are its root and the places of its children's trees. -/
theorem of_children {nd : Node} (h : List.Forall₂ Places nd.children trees) : nd.Places ([] :: under 0 trees) where
  sorted := by
    refine List.pairwise_cons.2 ⟨fun place hplace => ?_, under_sorted fun places hplaces => ?_⟩
    · obtain ⟨j, rest, rfl, -⟩ := le_of_mem_under hplace
      exact List.nil_lt_cons j rest
    · obtain ⟨i, hi, rfl⟩ := List.mem_iff_getElem.1 hplaces
      exact (h.get (h.length_eq ▸ hi) hi).sorted
  mem place := by
    rw [List.mem_cons, mem_under h]
    cases place with
    | nil => simp [Node.at?]
    | cons i place => simp [Node.at?]
  walk depth := by
    rw [Node.walk_eq]
    refine .cons ⟨rfl, by simp⟩ ((walk_under h (depth + 1) 0).imp ?_)
    rintro place q ⟨j, rest, rfl, hj, hdepth⟩
    exact ⟨by simpa [Node.at?] using hj, by rw [hdepth, List.length_cons]; omega⟩
  read depth := by
    obtain ⟨rest, hread⟩ := read_under h depth [] [] 0 [] rfl
    rw [Node.walk_eq, List.map_cons, Outline.read]
    simpa [Outline.readFrom] using hread
  readFrom root base place i depths hplace := by
    obtain ⟨rest, hread⟩ := read_under h root (base ++ [i]) depths 0 [] (next_append (base ++ [i]) [])
    refine ⟨rest, ?_⟩
    have hlevel : (root + base.length + 1 - root - 1).toNat = base.length := by omega
    have hdepth : root + (base ++ [i]).length + 1 = root + base.length + 1 + 1 := by simp; omega
    rw [hdepth, List.append_nil] at hread
    rw [Node.walk_eq, List.map_cons, List.cons_append, Outline.readFrom, hlevel, hplace, hread]
    simp

end Node.Places

theorem Node.exists_places (nd : Node) : ∃ places, nd.Places places := by
  induction nd using Node.ofChildren with
  | h nd ih =>
    choose! places hplaces using ih
    exact ⟨_, .of_children (List.forall₂_map_right_iff.2 (List.forall₂_same.2 hplaces))⟩

/-! ## Lines -/

/-- A text does not go over a line. -/
def OneLine (text : String) : Prop := '\n' ∉ text.toList

instance (text : String) : Decidable (OneLine text) := inferInstanceAs (Decidable ('\n' ∉ text.toList))

@[simp] theorem oneLine_append (a b : String) : OneLine (a ++ b) ↔ OneLine a ∧ OneLine b := by
  simp [OneLine, not_or]

theorem oneLine_intercalate {separator : String} (hseparator : OneLine separator) : ∀ texts : List String,
    (∀ text ∈ texts, OneLine text) → OneLine (separator.intercalate texts)
  | [], _ => by simp [OneLine]
  | [text], h => by simpa using h text
  | text :: text' :: texts, h => by
    rw [String.intercalate_cons_cons]
    simp only [oneLine_append]
    exact ⟨⟨h text List.mem_cons_self, hseparator⟩,
      oneLine_intercalate hseparator (text' :: texts) fun t ht => h t (List.mem_cons_of_mem _ ht)⟩

theorem oneLine_of_isWord {text : String} (h : isWord text = true) : OneLine text := by
  unfold isWord at h
  split at h
  · cases h
  · rename_i c w htext
    simp only [Bool.and_eq_true, List.all_eq_true] at h
    intro hmem
    rw [htext] at hmem
    rcases List.mem_cons.1 hmem with rfl | hmem
    · exact absurd h.1 (by decide)
    · exact absurd (h.2 _ hmem) (by decide)

theorem oneLine_of_isNumber {text : String} (h : isNumber text = true) : OneLine text := by
  unfold isNumber Text.isDigits at h
  split at h
  · cases h
  · rename_i c w htext
    simp only [Bool.and_eq_true, List.all_eq_true] at h
    intro hmem
    rw [htext] at hmem
    rcases List.mem_cons.1 hmem with rfl | hmem
    · exact absurd h.1 (by decide)
    · exact absurd (h.2 _ hmem) (by decide)

/-- A line feed in a string is written as an escape. -/
theorem oneLine_quoteString (text : String) : OneLine (quoteString text) := by
  have hencode : '\n' ∉ Text.Escape.encode text.toList := by
    simp only [Text.Escape.encode, List.mem_flatMap, not_exists, not_and]
    intro c _ hfeed
    rcases encodeChar_cases c with ⟨hc, -, -, hne, -⟩ | ⟨d, hc, hne, -⟩
    · rw [hc, List.mem_singleton] at hfeed
      exact hne hfeed.symm
    · rw [hc] at hfeed
      simp at hfeed
      exact hne hfeed.symm
  simp [OneLine, quoteString, hencode]

theorem oneLine_statements {ss : List Stmt} (h : ∀ nd ∈ ss.map Node.stmt, OneLine nd.render) :
    OneLine ("; ".intercalate (Stmt.renderAll ss)) := by
  rw [Stmt.renderAll_eq]
  refine oneLine_intercalate (by decide) _ (List.forall_mem_map.2 fun st hst => ?_)
  exact h (.stmt st) (List.mem_map_of_mem hst)

theorem oneLine_expressions {es : List Expr} (h : ∀ nd ∈ es.map Node.expr, OneLine nd.render) :
    OneLine (", ".intercalate (Expr.renderAll es)) := by
  rw [Expr.renderAll_eq]
  refine oneLine_intercalate (by decide) _ (List.forall_mem_map.2 fun e he => ?_)
  exact h (.expr e) (List.mem_map_of_mem he)

theorem oneLine_pairs {pairs : List (Expr × Expr)}
    (h : ∀ nd ∈ pairs.flatMap fun pair => [Node.expr pair.1, Node.expr pair.2], OneLine nd.render) :
    OneLine (", ".intercalate (Expr.renderPairs pairs)) := by
  rw [Expr.renderPairs_eq]
  refine oneLine_intercalate (by decide) _ (List.forall_mem_map.2 fun pair hpair => ?_)
  have hkey : OneLine pair.1.render := h (.expr pair.1) (List.mem_flatMap.2 ⟨pair, hpair, by simp⟩)
  have hvalue : OneLine pair.2.render := h (.expr pair.2) (List.mem_flatMap.2 ⟨pair, hpair, by simp⟩)
  simpa +decide [Expr.renderPair] using ⟨hkey, hvalue⟩

/-- A rendering goes over no line if those of the children do not and, at a leaf, the token does not. -/
theorem Node.oneLine_of_children {T : List Token} (hT : ∀ t ∈ T, t.wellSpelled = true) {nd : Node}
    (taken : nd.Taken T) (h : ∀ child ∈ nd.children, OneLine child.render) : OneLine nd.render := by
  cases nd with
  | program p => exact oneLine_statements h
  | block b =>
    cases b with
    | mk pos statements =>
      have hstatements : OneLine ("; ".intercalate (Stmt.renderAll statements)) := oneLine_statements h
      cases statements with
      | nil => exact (by decide : OneLine "\x7b \x7d")
      | cons st statements => simpa +decide [render, Block.render] using hstatements
  | stmt st =>
    cases st with
    | expr token value => simpa [children, render, Stmt.render] using h
    | bind pos name value =>
      simp only [children, List.forall_mem_cons] at h
      simpa +decide [render, Stmt.render] using ⟨h.1, h.2.1⟩
    | ret pos value =>
      cases value with
      | none => exact (by decide : OneLine "return")
      | some value => simpa +decide [children, render, Stmt.render] using h
  | expr e =>
    cases e with
    | ident id => exact oneLine_of_isWord (hT _ taken)
    | int pos literal value => exact oneLine_of_isNumber (hT _ taken.1)
    | bool pos value => cases value <;> simp +decide [render, Expr.render]
    | str pos text => exact oneLine_quoteString text
    | array pos elements => simpa +decide [render, Expr.render] using oneLine_expressions h
    | hash pos pairs => simpa +decide [render, Expr.render] using oneLine_pairs h
    | unary pos op operand => cases op <;> simpa +decide [children, render, Expr.render] using h
    | binary pos op left right =>
      simp only [children, List.forall_mem_cons] at h
      cases op <;> simpa +decide [render, Expr.render] using ⟨h.1, h.2.1⟩
    | cond pos condition consequence alternative =>
      cases alternative with
      | none =>
        simp only [children, List.forall_mem_cons] at h
        simpa +decide [render, Expr.render] using ⟨h.1, h.2.1⟩
      | some alternative =>
        simp only [children, List.forall_mem_cons] at h
        simpa +decide [render, Expr.render] using ⟨⟨h.1, h.2.1⟩, h.2.2 (.block alternative) (by simp)⟩
    | fn pos params body =>
      have hbody : OneLine body.render := h (.block body) (by simp [children])
      have hparams : OneLine (", ".intercalate (params.map (·.name))) := by
        refine oneLine_intercalate (by decide) _ (List.forall_mem_map.2 fun id hid => ?_)
        exact h (.ident id) (List.mem_append_left _ (List.mem_map_of_mem hid))
      simpa +decide [render, Expr.render] using ⟨hparams, hbody⟩
    | call pos callee args =>
      simp only [children, List.forall_mem_cons] at h
      simpa +decide [render, Expr.render] using ⟨h.1, oneLine_expressions h.2⟩
    | index pos left index =>
      simp only [children, List.forall_mem_cons] at h
      simpa +decide [render, Expr.render] using ⟨h.1, h.2.1⟩

/-- **No rendering goes over a line**, if the names and numbers of the tree are tokens of a source. -/
theorem Node.Drawn.oneLine_render {T : List Token} (hT : ∀ t ∈ T, t.wellSpelled = true) {nd : Node}
    (h : nd.Drawn T) : OneLine nd.render := by
  induction h with
  | mk taken _ ih => exact Node.oneLine_of_children hT taken ih

/-! ## Printed trees -/

/-- The depth that a line of a printed tree shows: half the number of spaces in front. -/
def Outline.level (line : List Char) : Int := ((line.takeWhile (· == ' ')).length / 2 : Nat)

theorem Node.isWord_className (nd : Node) : isWord nd.className = true := by
  cases nd with
  | program p => simp only [className]; decide
  | block b => simp only [className]; decide
  | stmt st => cases st <;> simp only [className] <;> decide
  | expr e => cases e <;> simp only [className] <;> decide

theorem Node.toList_line (depth : Int) (nd : Node) : (line depth nd).toList =
    List.replicate (2 * depth).toNat ' ' ++ nd.className.toList ++ ": ".toList ++ nd.render.toList := by
  simp [line]

theorem Node.oneLine_line {nd : Node} (h : OneLine nd.render) (depth : Int) : OneLine (line depth nd) := by
  have hspaces : OneLine (String.ofList (List.replicate (2 * depth).toNat ' ')) := by simp [OneLine]
  simpa +decide [line] using ⟨⟨hspaces, oneLine_of_isWord nd.isWord_className⟩, h⟩

/-- The spaces in front of a line end where the name of the class begins. -/
theorem Node.level_line {depth : Int} (hdepth : 0 ≤ depth) (nd : Node) : Outline.level (line depth nd).toList = depth := by
  have hname := nd.isWord_className
  unfold isWord at hname
  split at hname
  · cases hname
  · rename_i c rest hname'
    have hne : c ≠ ' ' := by
      rintro rfl
      exact absurd hname (by simp +decide)
    rw [toList_line, hname']
    simp [Outline.level, List.takeWhile_append_of_pos, hne]
    omega

/-- A tree whose renderings go over no line is printed with one line for each node. -/
theorem Node.splitOn_pretty {nd : Node} {indent : Int} (h : ∀ q ∈ nd.walk indent, OneLine q.2.render) :
    (nd.pretty indent).toList.splitOn '\n' = (nd.walk indent).map fun q => (line q.1 q.2).toList := by
  have hlines : (nd.pretty indent).toList = ['\n'].intercalate ((nd.walk indent).map fun q => (line q.1 q.2).toList) := by
    simp [pretty, String.toList_intercalate, Function.comp_def]
  rw [hlines]
  apply List.splitOn_intercalate
  · exact List.forall_mem_map.2 fun q hq => oneLine_line (h q hq) q.1
  · simp [walk_eq]

/-- The tree that the parser returns, whether or not it has complaints. -/
def tree (source : String) : Node := .program (parse source).program

theorem tree_oneLine (source : String) (indent : Int) : ∀ q ∈ (tree source).walk indent, OneLine q.2.render := by
  have hdrawn : (tree source).Drawn (TokenStream.ofSource source).ahead := Parsed.drawn (.ofSource source)
  exact fun q hq => (Node.forall_mem_walk (fun nd hnd child => hnd.child) hdrawn q hq).oneLine_render
    TokenStream.wellSpelled_ofSource

/-- **A printed tree shows the whole tree, and shows it recoverably.**  The children of any node are its parts, each
once.  For every source and every indent, a walk passes through the places of the tree, each once and in lexicographic
order (so a node is before all that is below it, and children are in their order), with the depth of each; the depths
alone give the places back.  No rendering on the way has a line feed, so the lines of the printed tree are the nodes of
the walk, indented by twice the depth; a line cannot be indented by less than nothing, so it is from an indent of zero on
that the lines give the places back. -/
theorem printed_tree_is_complete (source : String) (indent : Int) :
    (∀ nd : Node, ∃ roles : List Node.Role, roles.Nodup ∧ (∀ role, role ∈ roles ↔ (nd.part? role).isSome = true) ∧
      roles.map nd.part? = nd.children.map some) ∧
    (∃ places : List (List Nat), places.Pairwise (· < ·) ∧
      (∀ place, place ∈ places ↔ ((tree source).at? place).isSome = true) ∧
      List.Forall₂ (fun place q => (tree source).at? place = some q.2 ∧ q.1 = indent + place.length) places
        ((tree source).walk indent) ∧
      Outline.read (((tree source).walk indent).map (·.1)) = places ∧
      (0 ≤ indent →
        Outline.read ((((tree source).pretty indent).toList.splitOn '\n').map Outline.level) = places)) ∧
    (∀ q ∈ (tree source).walk indent, '\n' ∉ q.2.render.toList) ∧
    ((tree source).pretty indent).toList.splitOn '\n' = ((tree source).walk indent).map fun q =>
      List.replicate (2 * q.1).toNat ' ' ++ q.2.className.toList ++ ": ".toList ++ q.2.render.toList := by
  have hlines := Node.splitOn_pretty (tree_oneLine source indent)
  obtain ⟨places, hplaces⟩ := (tree source).exists_places
  refine ⟨fun nd => ⟨nd.roles, nd.roles_nodup, nd.mem_roles, nd.map_roles⟩,
    ⟨places, hplaces.sorted, hplaces.mem, hplaces.walk indent, hplaces.read indent, fun hindent => ?_⟩,
    tree_oneLine source indent, ?_⟩
  · have hlevels : (((tree source).pretty indent).toList.splitOn '\n').map Outline.level =
        ((tree source).walk indent).map (·.1) := by
      rw [hlines, List.map_map]
      refine List.map_congr_left fun q hq => Node.level_line ?_ q.2
      exact Int.le_trans hindent (Node.le_of_mem_walk q hq)
    rw [hlevels, hplaces.read]
  · rw [hlines]
    exact List.map_congr_left fun q _ => Node.toList_line q.1 q.2

theorem printed_tree_is_complete_sum :
    Outline.read ((((tree "1 + 2").pretty 0).toList.splitOn '\n').map Outline.level) =
      [[], [0], [0, 0], [0, 0, 0], [0, 0, 1]] := by
  obtain ⟨-, ⟨places, -, -, -, hread, hlines⟩, -⟩ := printed_tree_is_complete "1 + 2" 0
  rw [hlines (Int.le_refl 0), ← hread]
  decide +kernel

end Monkey
