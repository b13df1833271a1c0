import ContractAudit.Naming.Context

/-!
Filling in the full names of a tree: the declared types, and every name that stands in place of a
class. A bare name in an expression is a constant or a function and stays as it is.
-/
namespace ContractAudit

def Name.resolve (c : NameContext) (n : Name) : Name := { n with resolved := some (c.resolve n.raw) }

mutual

def TypeHint.resolve (c : NameContext) : TypeHint → TypeHint
  | .named n => .named (n.resolve c)
  | .nullable h => .nullable (h.resolve c)
  | .union hs => .union (TypeHint.resolveList c hs)
  | .intersection hs => .intersection (TypeHint.resolveList c hs)

def TypeHint.resolveList (c : NameContext) : List TypeHint → List TypeHint
  | [] => []
  | h :: hs => h.resolve c :: TypeHint.resolveList c hs

end

theorem TypeHint.resolveList_eq (c : NameContext) (hs : List TypeHint) :
    TypeHint.resolveList c hs = hs.map (·.resolve c) := by
  induction hs with
  | nil => rfl
  | cons h hs ih => rw [TypeHint.resolveList, ih, List.map_cons]

mutual

def Expr.resolve (c : NameContext) : Expr → Expr
  | .var s x => .var s x
  | .varVar s e => .varVar s (e.resolve c)
  | .literal s l => .literal s l
  | .name n => .name n
  | .items s f is => .items s f (Expr.resolveItems c is)
  | .new s r as => .new s (r.resolve c) (Expr.resolveArgs c as)
  | .methodCall s t m as f o => .methodCall s (t.resolve c) (m.resolve c) (Expr.resolveArgs c as) f o
  | .staticCall s r m as f => .staticCall s (r.resolve c) (m.resolve c) (Expr.resolveArgs c as) f
  | .call s f as => .call s (f.resolve c) (Expr.resolveArgs c as)
  | .property s t m o => .property s (t.resolve c) (m.resolve c) o
  | .staticProperty s r x => .staticProperty s (r.resolve c) x
  | .classConst s r x => .classConst s (r.resolve c) x
  | .index s t i => .index s (t.resolve c) (Expr.resolveOption c i)
  | .assign s op a b => .assign s op (a.resolve c) (b.resolve c)
  | .binary s op a b => .binary s op (a.resolve c) (b.resolve c)
  | .unary s op e => .unary s op (e.resolve c)
  | .ternary s b y n => .ternary s (b.resolve c) (Expr.resolveOption c y) (n.resolve c)
  | .instanceOf s e r => .instanceOf s (e.resolve c) (r.resolve c)
  | .cast s t e => .cast s t (e.resolve c)
  | .isset s es => .isset s (Expr.resolveList c es)
  | .word s op e => .word s op (e.resolve c)
  | .throwing s e => .throwing s (e.resolve c)
  | .yielding s k v f => .yielding s (Expr.resolveOption c k) (Expr.resolveOption c v) f
  | .matching s e arms => .matching s (e.resolve c) (Expr.resolveArms c arms)
  | .closure s => .closure s

def Expr.resolveOption (c : NameContext) : Option Expr → Option Expr
  | none => none
  | some e => some (e.resolve c)

def Expr.resolveList (c : NameContext) : List Expr → List Expr
  | [] => []
  | e :: es => e.resolve c :: Expr.resolveList c es

def Expr.resolveItems (c : NameContext) : List Item → List Item
  | [] => []
  | i :: is => i.resolve c :: Expr.resolveItems c is

def Item.resolve (c : NameContext) : Item → Item
  | ⟨k, v, r, s⟩ => ⟨Expr.resolveOption c k, v.resolve c, r, s⟩

def Expr.resolveArgs (c : NameContext) : List Arg → List Arg
  | [] => []
  | a :: as => a.resolve c :: Expr.resolveArgs c as

def Arg.resolve (c : NameContext) : Arg → Arg
  | ⟨n, v, s⟩ => ⟨n, v.resolve c, s⟩

def Expr.resolveArms (c : NameContext) : List Arm → List Arm
  | [] => []
  | a :: as => a.resolve c :: Expr.resolveArms c as

def Arm.resolve (c : NameContext) : Arm → Arm
  | .cases cs b => .cases (Expr.resolveList c cs) (b.resolve c)
  | .default b => .default (b.resolve c)

def Member.resolve (c : NameContext) : Member → Member
  | .ident x => .ident x
  | .dynamic e => .dynamic (e.resolve c)

def ClassRef.resolve (c : NameContext) : ClassRef → ClassRef
  | .named n => .named (n.resolve c)
  | .selfRef s => .selfRef s
  | .staticRef s => .staticRef s
  | .parentRef s => .parentRef s
  | .dynamic e => .dynamic (e.resolve c)
  | .anonymous s => .anonymous s

end

def StaticVar.resolve (c : NameContext) (v : StaticVar) : StaticVar :=
  ⟨v.name, Expr.resolveOption c v.start⟩

mutual

def Stmt.resolve (c : NameContext) : Stmt → Stmt
  | .expr e => .expr (e.resolve c)
  | .block b => .block (b.resolve c)
  | .returning s v => .returning s (Expr.resolveOption c v)
  | .throwing s v => .throwing s (v.resolve c)
  | .ifElse s e y es n =>
    .ifElse s (e.resolve c) (y.resolve c) (Stmt.resolveElseIfs c es) (Stmt.resolveOption c n)
  | .whileLoop s e b => .whileLoop s (e.resolve c) (b.resolve c)
  | .doWhile s b e => .doWhile s (b.resolve c) (e.resolve c)
  | .forLoop s i e n b =>
    .forLoop s (Expr.resolveList c i) (Expr.resolveList c e) (Expr.resolveList c n) (b.resolve c)
  | .foreach s e k v b =>
    .foreach s (e.resolve c) (Expr.resolveOption c k) (v.resolve c) (b.resolve c)
  | .switch s e cs => .switch s (e.resolve c) (Stmt.resolveCases c cs)
  | .tryCatch s b cs l =>
    .tryCatch s (b.resolve c) (Stmt.resolveCatches c cs) (Block.resolveOption c l)
  | .echo s es => .echo s (Expr.resolveList c es)
  | .unset s es => .unset s (Expr.resolveList c es)
  | .globals s xs => .globals s xs
  | .staticVars s vs => .staticVars s (vs.map (·.resolve c))
  | .jump s j => .jump s j
  | .declaration s => .declaration s
  | .nop s => .nop s

def Stmt.resolveOption (c : NameContext) : Option Stmt → Option Stmt
  | none => none
  | some s => some (s.resolve c)

def Stmt.resolveList (c : NameContext) : List Stmt → List Stmt
  | [] => []
  | s :: ss => s.resolve c :: Stmt.resolveList c ss

def Stmt.resolveElseIfs (c : NameContext) : List ElseIf → List ElseIf
  | [] => []
  | e :: es => e.resolve c :: Stmt.resolveElseIfs c es

def ElseIf.resolve (c : NameContext) : ElseIf → ElseIf
  | ⟨e, b⟩ => ⟨e.resolve c, b.resolve c⟩

def Stmt.resolveCases (c : NameContext) : List Case → List Case
  | [] => []
  | k :: ks => k.resolve c :: Stmt.resolveCases c ks

def Case.resolve (c : NameContext) : Case → Case
  | ⟨l, b⟩ => ⟨Expr.resolveOption c l, Stmt.resolveList c b⟩

def Stmt.resolveCatches (c : NameContext) : List Catch → List Catch
  | [] => []
  | k :: ks => k.resolve c :: Stmt.resolveCatches c ks

def Catch.resolve (c : NameContext) : Catch → Catch
  | ⟨s, ts, v, b⟩ => ⟨s, ts.map (·.resolve c), v, b.resolve c⟩

def Block.resolveOption (c : NameContext) : Option Block → Option Block
  | none => none
  | some b => some (b.resolve c)

def Block.resolve (c : NameContext) : Block → Block
  | ⟨s, ss⟩ => ⟨s, Stmt.resolveList c ss⟩

end

def Param.resolve (c : NameContext) (p : Param) : Param :=
  { p with hint := p.hint.map (·.resolve c), default := Expr.resolveOption c p.default }

def MethodDecl.resolve (c : NameContext) (m : MethodDecl) : MethodDecl :=
  { m with
    params := m.params.map (·.resolve c)
    returnType := m.returnType.map (·.resolve c)
    body := Block.resolveOption c m.body }

def TypeDecl.resolve (c : NameContext) (t : TypeDecl) : TypeDecl :=
  { t with
    fullName := c.qualify t.name
    parents := t.parents.map (·.resolve c)
    interfaces := t.interfaces.map (·.resolve c)
    traits := t.traits.map (·.resolve c)
    methods := t.methods.map (·.resolve c) }

def NamespaceBlock.resolve (b : NamespaceBlock) : NamespaceBlock :=
  { b with types := b.types.map (·.resolve (NameContext.ofBlock b)) }

/-- The tree with its names resolved; a tree that is resolved stays as it is. -/
def Program.resolve (p : Program) : Program :=
  if p.namesResolved then p
  else { p with blocks := p.blocks.map (·.resolve), namesResolved := true }

end ContractAudit
