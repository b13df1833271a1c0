import ContractAudit.Signature.Basic
import ContractAudit.Syntax.Decl

/-! The spans of a tree, node by node, and what it is for them to be well nested: no span ends
before it starts, and each lies within the span of the node above. What has no span of its own (a
type hint, an item, an argument, an arm, a case, a named class) is no node; its parts are those of
the node around it. -/
namespace ContractAudit

open Source

/-- A node of a tree by its span, with the nodes directly below it. -/
inductive Outline where
  | node (span : Span) (parts : List Outline)

namespace Outline

def span : Outline → Span
  | node s _ => s

end Outline

/-- A span lies within another, going by offsets. -/
def Source.Span.Within (s t : Span) : Prop :=
  t.start.offset ≤ s.start.offset ∧ s.finish.offset ≤ t.finish.offset

/-- No node ends before it starts, and each lies within the node above it. -/
inductive Outline.WellNested : Outline → Prop where
  | node {s : Span} {parts : List Outline} (ordered : s.start.offset ≤ s.finish.offset)
      (within : ∀ o ∈ parts, o.span.Within s) (parts_nested : ∀ o ∈ parts, WellNested o) :
      WellNested (.node s parts)

def Name.outline (n : Name) : Outline := .node n.span []

def TypeHint.parts (h : TypeHint) : List Outline := (Signature.hintNames h).map Name.outline

mutual

/-- The nodes directly below an expression. -/
@[simp]
def Expr.parts : Expr → List Outline
  | .var .. | .literal .. | .closure .. => []
  | .name n => [n.outline]
  | .varVar _ e | .unary _ _ e | .cast _ _ e | .word _ _ e | .throwing _ e =>
    [.node e.span e.parts]
  | .items _ _ is => Expr.partsItems is
  | .new _ r as => r.parts ++ Expr.partsArgs as
  | .methodCall _ t m as _ _ => .node t.span t.parts :: (m.parts ++ Expr.partsArgs as)
  | .staticCall _ r m as _ => r.parts ++ m.parts ++ Expr.partsArgs as
  | .call _ f as => .node f.span f.parts :: Expr.partsArgs as
  | .property _ t m _ => .node t.span t.parts :: m.parts
  | .staticProperty _ r _ | .classConst _ r _ => r.parts
  | .index _ t i => .node t.span t.parts :: Expr.partsOption i
  | .assign _ _ a b | .binary _ _ a b => [.node a.span a.parts, .node b.span b.parts]
  | .ternary _ b y n => .node b.span b.parts :: (Expr.partsOption y ++ [.node n.span n.parts])
  | .instanceOf _ e r => .node e.span e.parts :: r.parts
  | .isset _ es => Expr.partsList es
  | .yielding _ k v _ => Expr.partsOption k ++ Expr.partsOption v
  | .matching _ e arms => .node e.span e.parts :: Expr.partsArms arms

def Expr.partsOption : Option Expr → List Outline
  | none => []
  | some e => [.node e.span e.parts]

def Expr.partsList : List Expr → List Outline
  | [] => []
  | e :: es => .node e.span e.parts :: Expr.partsList es

def Expr.partsItems : List Item → List Outline
  | [] => []
  | i :: is => i.parts ++ Expr.partsItems is

@[simp]
def Item.parts : Item → List Outline
  | ⟨k, v, _, _⟩ => Expr.partsOption k ++ [.node v.span v.parts]

def Expr.partsArgs : List Arg → List Outline
  | [] => []
  | a :: as => a.parts ++ Expr.partsArgs as

@[simp]
def Arg.parts : Arg → List Outline
  | ⟨_, v, _⟩ => [.node v.span v.parts]

def Expr.partsArms : List Arm → List Outline
  | [] => []
  | a :: as => a.parts ++ Expr.partsArms as

@[simp]
def Arm.parts : Arm → List Outline
  | .cases cs b => Expr.partsList cs ++ [.node b.span b.parts]
  | .default b => [.node b.span b.parts]

@[simp]
def Member.parts : Member → List Outline
  | .ident _ => []
  | .dynamic e => [.node e.span e.parts]

/-- The words that stand for a class are nodes, and so is a class without a name. -/
@[simp]
def ClassRef.parts : ClassRef → List Outline
  | .named n => [n.outline]
  | .selfRef s | .staticRef s | .parentRef s | .anonymous s => [.node s []]
  | .dynamic e => [.node e.span e.parts]

end

def Expr.outline (e : Expr) : Outline := .node e.span e.parts

@[simp]
def StaticVar.parts (v : StaticVar) : List Outline := Expr.partsOption v.start

mutual

/-- The nodes directly below a statement. -/
@[simp]
def Stmt.parts : Stmt → List Outline
  | .expr e => [e.outline]
  | .block b => [.node b.span b.parts]
  | .returning _ v => Expr.partsOption v
  | .throwing _ v => [v.outline]
  | .ifElse _ e y es n =>
    e.outline :: .node y.span y.parts :: (Stmt.partsElseIfs es ++ Stmt.partsOption n)
  | .whileLoop _ e b | .doWhile _ b e => [e.outline, .node b.span b.parts]
  | .forLoop _ i e n b =>
    Expr.partsList i ++ Expr.partsList e ++ Expr.partsList n ++ [.node b.span b.parts]
  | .foreach _ e k v b =>
    e.outline :: (Expr.partsOption k ++ [v.outline, .node b.span b.parts])
  | .switch _ e cs => e.outline :: Stmt.partsCases cs
  | .tryCatch _ b cs l => .node b.span b.parts :: (Stmt.partsCatches cs ++ Block.partsOption l)
  | .echo _ es | .unset _ es => Expr.partsList es
  | .staticVars _ vs => vs.flatMap StaticVar.parts
  | .globals .. | .jump .. | .declaration .. | .nop .. => []

def Stmt.partsOption : Option Stmt → List Outline
  | none => []
  | some s => [.node s.span s.parts]

def Stmt.partsList : List Stmt → List Outline
  | [] => []
  | s :: ss => .node s.span s.parts :: Stmt.partsList ss

def Stmt.partsElseIfs : List ElseIf → List Outline
  | [] => []
  | e :: es => e.parts ++ Stmt.partsElseIfs es

@[simp]
def ElseIf.parts : ElseIf → List Outline
  | ⟨e, b⟩ => [e.outline, .node b.span b.parts]

def Stmt.partsCases : List Case → List Outline
  | [] => []
  | k :: ks => k.parts ++ Stmt.partsCases ks

@[simp]
def Case.parts : Case → List Outline
  | ⟨l, b⟩ => Expr.partsOption l ++ Stmt.partsList b

def Stmt.partsCatches : List Catch → List Outline
  | [] => []
  | k :: ks => .node k.span k.parts :: Stmt.partsCatches ks

@[simp]
def Catch.parts : Catch → List Outline
  | ⟨_, types, _, b⟩ => types.map Name.outline ++ [.node b.span b.parts]

def Block.partsOption : Option Block → List Outline
  | none => []
  | some b => [.node b.span b.parts]

@[simp]
def Block.parts : Block → List Outline
  | ⟨_, ss⟩ => Stmt.partsList ss

end

def Stmt.outline (s : Stmt) : Outline := .node s.span s.parts

def Block.outline (b : Block) : Outline := .node b.span b.parts

def Catch.outline (k : Catch) : Outline := .node k.span k.parts

def TypeHint.partsOption (h : Option TypeHint) : List Outline := h.toList.flatMap TypeHint.parts

def Param.outline (p : Param) : Outline :=
  .node p.span (TypeHint.partsOption p.hint ++ Expr.partsOption p.default)

def MethodDecl.outline (m : MethodDecl) : Outline :=
  .node m.span
    (m.params.map Param.outline ++ TypeHint.partsOption m.returnType ++ Block.partsOption m.body)

def TypeDecl.outline (t : TypeDecl) : Outline :=
  .node t.span ((t.parents ++ t.interfaces ++ t.traits).map Name.outline ++
    t.methods.map MethodDecl.outline)

def UseDecl.outline (u : UseDecl) : Outline := .node u.span []

def NamespaceBlock.parts (b : NamespaceBlock) : List Outline :=
  b.uses.map UseDecl.outline ++ b.types.map TypeDecl.outline

def NamespaceBlock.outline (b : NamespaceBlock) : Outline := .node b.span b.parts

/-- The outline of a whole file. -/
def Program.outline (p : Program) : Outline := .node p.span (p.blocks.map NamespaceBlock.outline)

@[simp]
theorem Expr.node_eq_outline (e : Expr) : .node e.span e.parts = e.outline := rfl

@[simp]
theorem Stmt.node_eq_outline (s : Stmt) : .node s.span s.parts = s.outline := rfl

@[simp]
theorem Block.node_eq_outline (b : Block) : .node b.span b.parts = b.outline := rfl

section
variable {α : Type} {parts : α → List Outline} {all : List α → List Outline}

theorem parts_eq_flatMap (hnil : all [] = []) (hcons : ∀ a as, all (a :: as) = parts a ++ all as)
    (as : List α) : all as = as.flatMap parts := by
  induction as with
  | nil => exact hnil
  | cons a as ih => rw [hcons, ih, List.flatMap_cons]

end

@[simp]
theorem Expr.partsOption_eq (e : Option Expr) : Expr.partsOption e = e.toList.map Expr.outline := by
  cases e <;> rfl

@[simp]
theorem Expr.partsList_eq (es : List Expr) : Expr.partsList es = es.map Expr.outline := by
  rw [List.map_eq_flatMap]
  exact parts_eq_flatMap rfl (fun _ _ => rfl) es

@[simp]
theorem Expr.partsItems_eq (is : List Item) : Expr.partsItems is = is.flatMap Item.parts :=
  parts_eq_flatMap rfl (fun _ _ => rfl) is

@[simp]
theorem Expr.partsArgs_eq (as : List Arg) : Expr.partsArgs as = as.flatMap Arg.parts :=
  parts_eq_flatMap rfl (fun _ _ => rfl) as

@[simp]
theorem Expr.partsArms_eq (as : List Arm) : Expr.partsArms as = as.flatMap Arm.parts :=
  parts_eq_flatMap rfl (fun _ _ => rfl) as

@[simp]
theorem Stmt.partsOption_eq (s : Option Stmt) : Stmt.partsOption s = s.toList.map Stmt.outline := by
  cases s <;> rfl

@[simp]
theorem Stmt.partsList_eq (ss : List Stmt) : Stmt.partsList ss = ss.map Stmt.outline := by
  rw [List.map_eq_flatMap]
  exact parts_eq_flatMap rfl (fun _ _ => rfl) ss

@[simp]
theorem Stmt.partsElseIfs_eq (es : List ElseIf) :
    Stmt.partsElseIfs es = es.flatMap ElseIf.parts :=
  parts_eq_flatMap rfl (fun _ _ => rfl) es

@[simp]
theorem Stmt.partsCases_eq (ks : List Case) : Stmt.partsCases ks = ks.flatMap Case.parts :=
  parts_eq_flatMap rfl (fun _ _ => rfl) ks

@[simp]
theorem Stmt.partsCatches_eq (ks : List Catch) : Stmt.partsCatches ks = ks.map Catch.outline := by
  rw [List.map_eq_flatMap]
  exact parts_eq_flatMap rfl (fun _ _ => rfl) ks

@[simp]
theorem Block.partsOption_eq (b : Option Block) :
    Block.partsOption b = b.toList.map Block.outline := by
  cases b <;> rfl

end ContractAudit
