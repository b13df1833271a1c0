import ContractAudit.Syntax.Decl

/-!
The walk through a tree: every node once, each before the nodes below it, in the order in which the
parts of a node are gone through. Bodies of closures, anonymous classes and nested declarations are
not in the tree, so they are not walked.
-/
namespace ContractAudit

inductive Visit where
  | type (t : TypeDecl)
  | method (m : MethodDecl)
  | block (b : Block)
  | stmt (s : Stmt)
  | catchClause (c : Catch)
  | expr (e : Expr)
  | classRef (c : ClassRef)

mutual

def Expr.inner : Expr → List Visit
  | .var .. | .literal .. | .name .. | .closure .. => []
  | .varVar _ e | .unary _ _ e | .cast _ _ e | .word _ _ e | .throwing _ e => .expr e :: e.inner
  | .items _ _ is => Expr.innerItems is
  | .new _ c as => .classRef c :: (c.inner ++ Expr.innerArgs as)
  | .methodCall _ t m as _ _ => .expr t :: (t.inner ++ m.inner ++ Expr.innerArgs as)
  | .staticCall _ c m as _ => .classRef c :: (c.inner ++ m.inner ++ Expr.innerArgs as)
  | .call _ f as => .expr f :: (f.inner ++ Expr.innerArgs as)
  | .property _ t m _ => .expr t :: (t.inner ++ m.inner)
  | .staticProperty _ c _ | .classConst _ c _ => .classRef c :: c.inner
  | .index _ t i => .expr t :: (t.inner ++ Expr.innerOption i)
  | .assign _ _ a b | .binary _ _ a b => .expr a :: (a.inner ++ .expr b :: b.inner)
  | .ternary _ c y n => .expr c :: (c.inner ++ Expr.innerOption y ++ .expr n :: n.inner)
  | .instanceOf _ e c => .expr e :: (e.inner ++ .classRef c :: c.inner)
  | .isset _ es => Expr.innerList es
  | .yielding _ k v _ => Expr.innerOption k ++ Expr.innerOption v
  | .matching _ s arms => .expr s :: (s.inner ++ Expr.innerArms arms)

def Expr.innerOption : Option Expr → List Visit
  | none => []
  | some e => .expr e :: e.inner

def Expr.innerList : List Expr → List Visit
  | [] => []
  | e :: es => .expr e :: (e.inner ++ Expr.innerList es)

def Expr.innerItems : List Item → List Visit
  | [] => []
  | i :: is => i.inner ++ Expr.innerItems is

def Item.inner : Item → List Visit
  | ⟨k, v, _, _⟩ => Expr.innerOption k ++ .expr v :: v.inner

def Expr.innerArgs : List Arg → List Visit
  | [] => []
  | a :: as => a.inner ++ Expr.innerArgs as

def Arg.inner : Arg → List Visit
  | ⟨_, v, _⟩ => .expr v :: v.inner

def Expr.innerArms : List Arm → List Visit
  | [] => []
  | a :: as => a.inner ++ Expr.innerArms as

def Arm.inner : Arm → List Visit
  | .cases cs b => Expr.innerList cs ++ .expr b :: b.inner
  | .default b => .expr b :: b.inner

def Member.inner : Member → List Visit
  | .ident _ => []
  | .dynamic e => .expr e :: e.inner

def ClassRef.inner : ClassRef → List Visit
  | .dynamic e => .expr e :: e.inner
  | .named _ | .selfRef _ | .staticRef _ | .parentRef _ | .anonymous _ => []

end

def StaticVar.inner (v : StaticVar) : List Visit := Expr.innerOption v.start

mutual

def Stmt.inner : Stmt → List Visit
  | .expr e => .expr e :: e.inner
  | .block b => .block b :: b.inner
  | .returning _ v => Expr.innerOption v
  | .throwing _ v => .expr v :: v.inner
  | .ifElse _ c y es n =>
    .expr c :: (c.inner ++ .stmt y :: (y.inner ++ Stmt.innerElseIfs es ++ Stmt.innerOption n))
  | .whileLoop _ c b => .expr c :: (c.inner ++ .stmt b :: b.inner)
  | .doWhile _ b c => .stmt b :: (b.inner ++ .expr c :: c.inner)
  | .forLoop _ i c s b =>
    Expr.innerList i ++ Expr.innerList c ++ Expr.innerList s ++ .stmt b :: b.inner
  | .foreach _ s k v b =>
    .expr s :: (s.inner ++ Expr.innerOption k ++ .expr v :: (v.inner ++ .stmt b :: b.inner))
  | .switch _ s cs => .expr s :: (s.inner ++ Stmt.innerCases cs)
  | .tryCatch _ b cs l => .block b :: (b.inner ++ Stmt.innerCatches cs ++ Block.innerOption l)
  | .echo _ es | .unset _ es => Expr.innerList es
  | .staticVars _ vs => vs.flatMap StaticVar.inner
  | .globals .. | .jump .. | .declaration .. | .nop .. => []

def Stmt.innerOption : Option Stmt → List Visit
  | none => []
  | some s => .stmt s :: s.inner

def Stmt.innerList : List Stmt → List Visit
  | [] => []
  | s :: ss => .stmt s :: (s.inner ++ Stmt.innerList ss)

def Stmt.innerElseIfs : List ElseIf → List Visit
  | [] => []
  | e :: es => e.inner ++ Stmt.innerElseIfs es

def ElseIf.inner : ElseIf → List Visit
  | ⟨c, b⟩ => .expr c :: (c.inner ++ .stmt b :: b.inner)

def Stmt.innerCases : List Case → List Visit
  | [] => []
  | c :: cs => c.inner ++ Stmt.innerCases cs

def Case.inner : Case → List Visit
  | ⟨l, b⟩ => Expr.innerOption l ++ Stmt.innerList b

def Stmt.innerCatches : List Catch → List Visit
  | [] => []
  | c :: cs => .catchClause c :: (c.inner ++ Stmt.innerCatches cs)

def Catch.inner : Catch → List Visit
  | ⟨_, _, _, b⟩ => .block b :: b.inner

def Block.innerOption : Option Block → List Visit
  | none => []
  | some b => .block b :: b.inner

def Block.inner : Block → List Visit
  | ⟨_, ss⟩ => Stmt.innerList ss

end

/-- What the walk comes to below a method: the defaults of its parameters, then its body. -/
def MethodDecl.inner (m : MethodDecl) : List Visit :=
  m.params.flatMap (fun p => Expr.innerOption p.default) ++ Block.innerOption m.body

def TypeDecl.inner (t : TypeDecl) : List Visit :=
  t.methods.flatMap fun m => .method m :: m.inner

def Program.walk (p : Program) : List Visit := p.types.flatMap fun t => .type t :: t.inner

end ContractAudit
