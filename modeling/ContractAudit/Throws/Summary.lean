import ContractAudit.Hierarchy.Index
import ContractAudit.Log
import ContractAudit.NameSet
import ContractAudit.Syntax.Decl

/-!
What one method body does by itself: the exceptions it raises, and the calls whose target class is
known from the text. Known targets are `$this`, the class references of static calls, an object
made where it is called, and a local whose class a parameter's type or a preceding `new` tells.
All else is passed over and only told.
-/
namespace ContractAudit.Throws

/-- A call out of a body: the class that `$this` is bound to, the class the method is looked up in,
and the exceptions that are caught around it. -/
structure CallSite where
  thisClass : String
  lookupClass : String
  method : String
  caught : List String
deriving DecidableEq

structure Summary where
  raised : NameSet
  calls : List CallSite
deriving DecidableEq

def Summary.empty : Summary := ⟨∅, []⟩

structure Setting where
  index : Index
  honorCatch : Bool
  thisClass : String
  selfClass : String
  parent : Option String
  /-- The types caught around the present place, the outermost first; empty if catching does not
  count. -/
  caught : List String

namespace Setting

def classOf (s : Setting) : ClassRef → Option String
  | .named n => some n.full
  | .selfRef _ => some s.selfClass
  | .staticRef _ => some s.thisClass
  | .parentRef _ => s.parent
  | .dynamic _ | .anonymous _ => none

def guardedBy (s : Setting) (catches : List Catch) : Setting :=
  if s.honorCatch then
    { s with caught := s.caught ++ catches.flatMap fun c => c.types.map (·.full) }
  else s

end Setting

def canonical (i : Index) (name : String) : String := i.declaredName (Text.dropLeading '\\' name)

def isCaught (i : Index) (caught : List String) (exception : String) : Bool :=
  caught.any (i.isSubtype exception ·)

/-- A variable that a catch clause binds. It loses its types when something is assigned to it. -/
structure CatchVar where
  name : String
  types : Option (List String)

structure Scan where
  locals : List (String × List String)
  /-- The variables of the clauses around, the innermost first. -/
  catchVars : List CatchVar
  raised : NameSet
  /-- The calls so far, the last first. -/
  calls : List CallSite
  events : List Event

namespace Scan

def start (locals : List (String × List String)) : Scan := ⟨locals, [], ∅, [], []⟩

def tell (e : Event) (c : Scan) : Scan := { c with events := e :: c.events }

def classes? (c : Scan) (var : String) : Option (List String) := c.locals.lookup var

def dropLocal (var : String) (c : Scan) : Scan :=
  { c with locals := c.locals.filter (·.1 != var) }

def setLocal (var : String) (classes : List String) (c : Scan) : Scan :=
  { c with locals := (var, classes) :: c.locals.filter (·.1 != var) }

def forget (var : String) (c : Scan) : Scan :=
  { c.dropLocal var with
    catchVars := c.catchVars.map fun v => if v.name = var then { v with types := none } else v }

def pushCatch (var : String) (types : List String) (c : Scan) : Scan :=
  { c.dropLocal var with catchVars := ⟨var, some types⟩ :: c.catchVars }

def popCatch (c : Scan) : Scan := { c with catchVars := c.catchVars.tail }

def raise (s : Setting) (name : String) (c : Scan) : Scan :=
  let exception := canonical s.index name
  if isCaught s.index s.caught exception then c.tell (.raiseHandled exception s.selfClass)
  else { c with raised := c.raised.insert exception }

/-- The operand of a throw. An object made on the spot and a variable that is caught tell the
class. -/
def recordThrow (s : Setting) (operand : Expr) (c : Scan) : Scan :=
  match operand with
  | .new _ of _ =>
    match s.classOf of with
    | some name => c.raise s name
    | none => c.tell (.raiseOfUnknownClass s.selfClass)
  | .var _ var =>
    match c.catchVars.find? (·.name == var) with
    | some ⟨_, some types⟩ => types.foldl (fun c t => c.raise s t) c
    | some ⟨_, none⟩ => c.tell (.raiseAfterReassignment var)
    | none => c.tell (.raiseOfUnknownVariable var s.selfClass)
  | _ => c.tell (.raiseOfComputedValue s.selfClass)

def follow (s : Setting) (thisClass lookupClass method : String) (c : Scan) : Scan :=
  { c with calls := ⟨thisClass, lookupClass, method, s.caught⟩ :: c.calls }

def callOn (s : Setting) (target : Expr) (method : String) (c : Scan) : Scan :=
  match target with
  | .var _ var =>
    if var = "this" then c.follow s s.thisClass s.thisClass method
    else match c.classes? var with
      | some classes => classes.foldl (fun c k => c.follow s k k method) c
      | none => c.tell (.variableTypeUnknown var method)
  | .new _ of _ =>
    match s.classOf of with
    | some k => c.follow s k k method
    | none => c.tell (.instanceUnknown method)
  | _ => c.tell (.receiverUnknown method)

def recordCall (s : Setting) (target : Expr) (m : Member) (firstClass : Bool) (c : Scan) : Scan :=
  match m with
  | .dynamic _ => c.tell (.methodNameDynamic s.selfClass)
  | .ident method =>
    if firstClass then c.tell (.methodClosure method s.selfClass) else c.callOn s target method

/-- A static call of a method by name. Within the hierarchy `$this` stays bound. -/
def callStatic (s : Setting) (of : ClassRef) (method : String) (c : Scan) : Scan :=
  match of with
  | .named n => c.follow s n.full n.full method
  | .selfRef _ => c.follow s s.thisClass s.selfClass method
  | .staticRef _ => c.follow s s.thisClass s.thisClass method
  | .parentRef _ =>
    match s.parent with
    | some p => c.follow s s.thisClass p method
    | none => c.tell (.parentMissing method s.selfClass)
  | .dynamic _ | .anonymous _ => c.tell (.classDynamic method)

def recordStaticCall (s : Setting) (of : ClassRef) (m : Member) (firstClass : Bool) (c : Scan) :
    Scan :=
  match m with
  | .dynamic _ => c
  | .ident method =>
    if firstClass then c.tell (.staticClosure method s.selfClass) else c.callStatic s of method

def made? (s : Setting) (op : AssignOp) (value : Expr) : Option String :=
  match op, value with
  | .assign, .new _ of _ => s.classOf of
  | _, _ => none

def assignTo (s : Setting) (var : String) (op : AssignOp) (value : Expr) (c : Scan) : Scan :=
  match made? s op value with
  | some k => (c.forget var).setLocal var [k]
  | none => c.forget var

/-- A variable that a loop assigns to; any other target is passed over. -/
def loopTarget (target : Expr) (c : Scan) : Scan :=
  match target with
  | .var _ var => c.forget var
  | _ => c

end Scan

mutual

/-- Goes through an expression. The operand of a throw is gone through with `operand` set: its parts
count, but it is no call, throw or assignment of its own. -/
def scanExpr (s : Setting) (operand : Bool) : Expr → Scan → Scan
  | .var .., c | .literal .., c | .name .., c | .closure .., c => c
  | .varVar _ e, c | .unary _ _ e, c | .cast _ _ e, c | .word _ _ e, c => scanExpr s false e c
  | .throwing _ e, c =>
    if operand then scanExpr s false e c else scanExpr s true e (c.recordThrow s e)
  | .items _ _ is, c => scanItems s is c
  | .new _ r as, c => scanArgs s as (scanClassRef s r c)
  | .methodCall _ t m as f _, c =>
    let c := scanArgs s as (scanMember s m (scanExpr s false t c))
    if operand then c else c.recordCall s t m f
  | .staticCall _ r m as f, c =>
    let c := scanArgs s as (scanMember s m (scanClassRef s r c))
    if operand then c else c.recordStaticCall s r m f
  | .call _ f as, c => scanArgs s as (scanExpr s false f c)
  | .property _ t m _, c => scanMember s m (scanExpr s false t c)
  | .staticProperty _ r _, c | .classConst _ r _, c => scanClassRef s r c
  | .index _ t i, c => scanOption s i (scanExpr s false t c)
  | .assign _ op t v, c =>
    if operand then scanExpr s false v (scanExpr s false t c)
    else
      let c := scanExpr s false v c
      match t with
      | .var _ var => c.assignTo s var op v
      | t => scanExpr s false t c
  | .binary _ _ a b, c => scanExpr s false b (scanExpr s false a c)
  | .ternary _ b y n, c => scanExpr s false n (scanOption s y (scanExpr s false b c))
  | .instanceOf _ e r, c => scanClassRef s r (scanExpr s false e c)
  | .isset _ es, c => scanExprs s es c
  | .yielding _ k v _, c => scanOption s v (scanOption s k c)
  | .matching _ e arms, c => scanArms s arms (scanExpr s false e c)

def scanOption (s : Setting) : Option Expr → Scan → Scan
  | none, c => c
  | some e, c => scanExpr s false e c

def scanExprs (s : Setting) : List Expr → Scan → Scan
  | [], c => c
  | e :: es, c => scanExprs s es (scanExpr s false e c)

def scanItems (s : Setting) : List Item → Scan → Scan
  | [], c => c
  | i :: is, c => scanItems s is (scanItem s i c)

def scanItem (s : Setting) : Item → Scan → Scan
  | ⟨k, v, _, _⟩, c => scanExpr s false v (scanOption s k c)

def scanArgs (s : Setting) : List Arg → Scan → Scan
  | [], c => c
  | a :: as, c => scanArgs s as (scanArg s a c)

def scanArg (s : Setting) : Arg → Scan → Scan
  | ⟨_, v, _⟩, c => scanExpr s false v c

def scanArms (s : Setting) : List Arm → Scan → Scan
  | [], c => c
  | a :: as, c => scanArms s as (scanArm s a c)

def scanArm (s : Setting) : Arm → Scan → Scan
  | .cases cs b, c => scanExpr s false b (scanExprs s cs c)
  | .default b, c => scanExpr s false b c

def scanMember (s : Setting) : Member → Scan → Scan
  | .ident _, c => c
  | .dynamic e, c => scanExpr s false e c

def scanClassRef (s : Setting) : ClassRef → Scan → Scan
  | .dynamic e, c => scanExpr s false e c
  | .named _, c | .selfRef _, c | .staticRef _, c | .parentRef _, c | .anonymous _, c => c

end

def scanStaticVars (s : Setting) (vars : List StaticVar) (c : Scan) : Scan :=
  vars.foldl (fun c v => scanOption s v.start c) c

mutual

def scanStmt (s : Setting) : Stmt → Scan → Scan
  | .expr e, c => scanExpr s false e c
  | .block b, c => scanBlock s b c
  | .returning _ v, c => scanOption s v c
  | .throwing _ v, c => scanExpr s true v (c.recordThrow s v)
  | .ifElse _ e y es n, c =>
    scanElse s n (scanElseIfs s es (scanStmt s y (scanExpr s false e c)))
  | .whileLoop _ e b, c => scanStmt s b (scanExpr s false e c)
  | .doWhile _ b e, c => scanExpr s false e (scanStmt s b c)
  | .forLoop _ i e n b, c => scanStmt s b (scanExprs s n (scanExprs s e (scanExprs s i c)))
  | .foreach _ e k v b, c =>
    let c := scanExpr s false e c
    let c := match k with
      | some k => c.loopTarget k
      | none => c
    scanStmt s b (c.loopTarget v)
  | .switch _ e cs, c => scanCases s cs (scanExpr s false e c)
  | .tryCatch _ b cs l, c =>
    scanLast s l (scanCatches s cs (scanBlock (s.guardedBy cs) b c))
  | .echo _ es, c | .unset _ es, c => scanExprs s es c
  | .staticVars _ vs, c => scanStaticVars s vs c
  | .globals .., c | .jump .., c | .declaration .., c | .nop .., c => c

def scanElse (s : Setting) : Option Stmt → Scan → Scan
  | none, c => c
  | some t, c => scanStmt s t c

def scanStmts (s : Setting) : List Stmt → Scan → Scan
  | [], c => c
  | t :: ts, c => scanStmts s ts (scanStmt s t c)

def scanElseIfs (s : Setting) : List ElseIf → Scan → Scan
  | [], c => c
  | e :: es, c => scanElseIfs s es (scanElseIf s e c)

def scanElseIf (s : Setting) : ElseIf → Scan → Scan
  | ⟨e, b⟩, c => scanStmt s b (scanExpr s false e c)

def scanCases (s : Setting) : List Case → Scan → Scan
  | [], c => c
  | k :: ks, c => scanCases s ks (scanCase s k c)

def scanCase (s : Setting) : Case → Scan → Scan
  | ⟨l, b⟩, c => scanStmts s b (scanOption s l c)

def scanCatches (s : Setting) : List Catch → Scan → Scan
  | [], c => c
  | k :: ks, c => scanCatches s ks (scanCatch s k c)

/-- The variable of a clause has the types that it catches, within the clause. -/
def scanCatch (s : Setting) : Catch → Scan → Scan
  | ⟨_, types, some var, b⟩, c =>
    (scanBlock s b (c.pushCatch var (types.map (·.full)))).popCatch
  | ⟨_, _, none, b⟩, c => scanBlock s b c

def scanLast (s : Setting) : Option Block → Scan → Scan
  | none, c => c
  | some b, c => scanBlock s b c

def scanBlock (s : Setting) : Block → Scan → Scan
  | ⟨_, ts⟩, c => scanStmts s ts c

end

def paramLocals (i : Index) (params : List ParamInfo) : List (String × List String) :=
  params.foldl (fun locals p =>
    let classes := match p.type with
      | some t => t.classNames.filter i.contains
      | none => []
    if classes.isEmpty then locals else (p.name, classes) :: locals.filter (·.1 != p.name)) []

def summarize (s : Setting) (params : List ParamInfo) (body : Block) : Summary × List Event :=
  let c := scanBlock s body (Scan.start (paramLocals s.index params))
  (⟨c.raised, c.calls.reverse⟩, c.events.reverse)

end ContractAudit.Throws
