import ContractAudit.Proofs.Steps
import ContractAudit.Syntax.Walk

/-! A body as a row of stretches, each with the parts of try statements around it. Main statement:
to go through a body is to take the steps of its stretches one after the other, each where its types
are caught. -/
namespace ContractAudit.Throws

/-- The setting of a block within which these types are caught. -/
def Setting.within (s : Setting) (types : List String) : Setting :=
  if s.honorCatch then { s with caught := s.caught ++ types } else s

def caughtBy (catches : List Catch) : List String := catches.flatMap fun c => c.types.map (·.full)

theorem guardedBy_eq_within (s : Setting) (catches : List Catch) :
    s.guardedBy catches = s.within (caughtBy catches) := rfl

@[simp] theorem Setting.within_nil (s : Setting) : s.within [] = s := by
  simp [within]

theorem Setting.within_within (s : Setting) (a b : List String) :
    (s.within a).within b = s.within (a ++ b) := by
  cases h : s.honorCatch <;> simp [within, h]

@[simp] theorem Setting.index_within (s : Setting) (types : List String) :
    (s.within types).index = s.index := by
  unfold within
  split <;> rfl

@[simp] theorem Setting.thisClass_within (s : Setting) (types : List String) :
    (s.within types).thisClass = s.thisClass := by
  unfold within
  split <;> rfl

@[simp] theorem Setting.classOf_within (s : Setting) (types : List String) (of : ClassRef) :
    (s.within types).classOf of = s.classOf of := by
  unfold within
  split
  · cases of <;> rfl
  · rfl

/-- A part of a try statement; what stands in a last block is in no such part. -/
inductive Around where
  /-- The body, with the clauses that catch there. -/
  | body (catches : List Catch)
  | clause (k : Catch)

def Around.caught : Around → List String
  | body ks => caughtBy ks
  | clause _ => []

/-- The types that are caught at a place, those of the outermost statement first. -/
def guardsOf (as : List Around) : List String := as.flatMap Around.caught

@[simp] theorem guardsOf_nil : guardsOf [] = [] := rfl

theorem guardsOf_append_body (as : List Around) (ks : List Catch) :
    guardsOf (as ++ [.body ks]) = guardsOf as ++ caughtBy ks := by
  simp [guardsOf, Around.caught]

theorem guardsOf_append_clause (as : List Around) (k : Catch) :
    guardsOf (as ++ [.clause k]) = guardsOf as := by
  simp [guardsOf, Around.caught]

/-- Something with the parts of try statements around it, the outermost first. -/
structure Amid (α : Type) where
  around : List Around
  what : α

/-- What comes of it stands at the same place. -/
def Amid.spread {α β : Type} (f : α → List β) (x : Amid α) : List (Amid β) :=
  (f x.what).map (⟨x.around, ·⟩)

theorem Amid.map_what_spread {α β : Type} (f : α → List β) (xs : List (Amid α)) :
    (xs.flatMap (·.spread f)).map (·.what) = xs.flatMap fun x => f x.what := by
  rw [List.map_flatMap]
  congr 1
  funext x
  rw [spread, List.map_map]
  exact List.map_id _

/-- A stretch of a body at the level of statements. -/
inductive Stretch where
  /-- A statement, up to the first statement or block below it. -/
  | stmt (t : Stmt)
  /-- The start of a block. -/
  | block (b : Block)
  /-- An expression between the statements below a statement. -/
  | eval (e : Expr)
  /-- The start and the end of a clause. -/
  | enter (k : Catch)
  | leave (k : Catch)

/-- The nodes from a statement on to the first statement or block below it. -/
def headNodes : Stmt → List Visit
  | .expr e | .throwing _ e | .ifElse _ e .. | .whileLoop _ e _ | .switch _ e _ =>
    .expr e :: e.inner
  | .returning _ v => Expr.innerOption v
  | .forLoop _ i e n _ => Expr.innerList i ++ Expr.innerList e ++ Expr.innerList n
  | .foreach _ e k v _ => .expr e :: (e.inner ++ Expr.innerOption k ++ .expr v :: v.inner)
  | .echo _ es | .unset _ es => Expr.innerList es
  | .staticVars _ vs => vs.flatMap StaticVar.inner
  | .block _ | .doWhile .. | .tryCatch .. | .globals .. | .jump .. | .declaration .. | .nop .. => []

/-- The steps up to there. -/
def headSteps : Stmt → List Step
  | .expr e | .ifElse _ e .. | .whileLoop _ e _ | .switch _ e _ => stepsOfExpr false e
  | .throwing _ e => .raise e :: stepsOfExpr true e
  | .returning _ v => stepsOfOption v
  | .forLoop _ i e n _ => stepsOfExprs i ++ stepsOfExprs e ++ stepsOfExprs n
  | .foreach _ e k v _ => stepsOfExpr false e ++ (k.toList ++ [v]).flatMap stepsOfTarget
  | .echo _ es => stepsOfExprs es
  | .unset _ es => stepsOfExprs es ++ binding .unset (es.filterMap plainVar?)
  | .staticVars _ vs => stepsOfStaticVars vs
  | .globals _ names => binding .global names
  | .block _ | .doWhile .. | .tryCatch .. | .jump .. | .declaration .. | .nop .. => []

namespace Stretch

/-- The nodes that the walk comes to. -/
def nodes : Stretch → List Visit
  | stmt t => .stmt t :: headNodes t
  | block b => [.block b]
  | eval e => .expr e :: e.inner
  | enter k => [.catchClause k]
  | leave _ => []

/-- The steps that are taken. -/
def steps : Stretch → List Step
  | stmt t => headSteps t
  | block _ => []
  | eval e => stepsOfExpr false e
  | enter k => k.var.toList.map (.enter · (k.types.map (·.full)))
  | leave k => k.var.toList.map fun _ => .leave

end Stretch

mutual

/-- The stretches of a statement that stands at a place. -/
def stretchesOfStmt (as : List Around) (t : Stmt) : List (Amid Stretch) :=
  ⟨as, .stmt t⟩ :: match t with
    | .block b => stretchesOfBlock as b
    | .ifElse _ _ y es n => stretchesOfStmt as y ++ stretchesOfElseIfs as es ++ stretchesOfElse as n
    | .whileLoop _ _ b | .forLoop _ _ _ _ b | .foreach _ _ _ _ b => stretchesOfStmt as b
    | .doWhile _ b e => stretchesOfStmt as b ++ [⟨as, .eval e⟩]
    | .switch _ _ cs => stretchesOfCases as cs
    | .tryCatch _ b cs l =>
      stretchesOfBlock (as ++ [.body cs]) b ++ stretchesOfCatches as cs ++ stretchesOfLast as l
    | .expr _ | .returning .. | .throwing .. | .echo .. | .unset .. | .staticVars .. | .globals ..
    | .jump .. | .declaration .. | .nop .. => []

def stretchesOfElse (as : List Around) : Option Stmt → List (Amid Stretch)
  | none => []
  | some t => stretchesOfStmt as t

def stretchesOfStmts (as : List Around) : List Stmt → List (Amid Stretch)
  | [] => []
  | t :: ts => stretchesOfStmt as t ++ stretchesOfStmts as ts

def stretchesOfElseIfs (as : List Around) : List ElseIf → List (Amid Stretch)
  | [] => []
  | e :: es => stretchesOfElseIf as e ++ stretchesOfElseIfs as es

def stretchesOfElseIf (as : List Around) : ElseIf → List (Amid Stretch)
  | ⟨e, b⟩ => ⟨as, .eval e⟩ :: stretchesOfStmt as b

def stretchesOfCases (as : List Around) : List Case → List (Amid Stretch)
  | [] => []
  | k :: ks => stretchesOfCase as k ++ stretchesOfCases as ks

def stretchesOfCase (as : List Around) : Case → List (Amid Stretch)
  | ⟨l, b⟩ => l.toList.map (⟨as, .eval ·⟩) ++ stretchesOfStmts as b

def stretchesOfCatches (as : List Around) : List Catch → List (Amid Stretch)
  | [] => []
  | k :: ks => stretchesOfCatch as k ++ stretchesOfCatches as ks

def stretchesOfCatch (as : List Around) : Catch → List (Amid Stretch)
  | ⟨span, types, var, b⟩ =>
    let k : Catch := ⟨span, types, var, b⟩
    ⟨as, .enter k⟩ :: (stretchesOfBlock (as ++ [.clause k]) b ++ [⟨as ++ [.clause k], .leave k⟩])

def stretchesOfLast (as : List Around) : Option Block → List (Amid Stretch)
  | none => []
  | some b => stretchesOfBlock as b

def stretchesOfBlock (as : List Around) : Block → List (Amid Stretch)
  | ⟨span, ts⟩ => ⟨as, .block ⟨span, ts⟩⟩ :: stretchesOfStmts as ts

end

/-- The nodes of stretches, in the order of the walk. -/
def spotsOf (xs : List (Amid Stretch)) : List (Amid Visit) := xs.flatMap (·.spread Stretch.nodes)

/-- The steps of stretches, in order. -/
def deedsOf (xs : List (Amid Stretch)) : List (Amid Step) := xs.flatMap (·.spread Stretch.steps)

/-- The nodes of the walk through a body. -/
def spots (b : Block) : List (Amid Visit) := spotsOf (stretchesOfStmts [] b.statements)

/-- The steps of a body. -/
def deeds (b : Block) : List (Amid Step) := deedsOf (stretchesOfStmts [] b.statements)

/-- The steps of a body, wherever they stand. -/
def stepsOfBlock (b : Block) : List Step := (deeds b).map (·.what)

@[simp] theorem deedsOf_nil : deedsOf [] = [] := rfl

@[simp] theorem deedsOf_cons (as : List Around) (st : Stretch) (xs : List (Amid Stretch)) :
    deedsOf (⟨as, st⟩ :: xs) = st.steps.map (⟨as, ·⟩) ++ deedsOf xs := List.flatMap_cons

@[simp] theorem deedsOf_append (xs ys : List (Amid Stretch)) :
    deedsOf (xs ++ ys) = deedsOf xs ++ deedsOf ys := List.flatMap_append

theorem spotsOf_append (xs ys : List (Amid Stretch)) :
    spotsOf (xs ++ ys) = spotsOf xs ++ spotsOf ys := List.flatMap_append

theorem map_what_spotsOf (xs : List (Amid Stretch)) :
    (spotsOf xs).map (·.what) = xs.flatMap (·.what.nodes) := Amid.map_what_spread _ xs

theorem map_what_deedsOf (xs : List (Amid Stretch)) :
    (deedsOf xs).map (·.what) = xs.flatMap (·.what.steps) := Amid.map_what_spread _ xs

/-- Takes steps one after the other, each in the setting of its place. -/
def perform (s : Setting) (xs : List (Amid Step)) (c : Scan) : Scan :=
  xs.foldl (fun c x => x.what.run (s.within (guardsOf x.around)) c) c

section
variable (s : Setting) (c : Scan)

@[simp] theorem perform_nil : perform s [] c = c := rfl

@[simp] theorem perform_cons (x : Amid Step) (xs : List (Amid Step)) :
    perform s (x :: xs) c = perform s xs (x.what.run (s.within (guardsOf x.around)) c) := rfl

@[simp] theorem perform_append (xs ys : List (Amid Step)) :
    perform s (xs ++ ys) c = perform s ys (perform s xs c) := List.foldl_append

/- Steps at one place are taken in one setting. -/
@[simp] theorem perform_map (as : List Around) (steps : List Step) :
    perform s (steps.map (⟨as, ·⟩)) c = runAll (s.within (guardsOf as)) steps c := List.foldl_map

end

/- A statement takes its first steps, then those of the statements below it. -/
theorem perform_head (s : Setting) (as : List Around) (t : Stmt) (xs : List (Amid Stretch))
    (c : Scan) : perform s (deedsOf (⟨as, .stmt t⟩ :: xs)) c =
      perform s (deedsOf xs) (runAll (s.within (guardsOf as)) (headSteps t) c) := by
  simp [Stretch.steps]

mutual

theorem scanStmt_eq (s : Setting) (as : List Around) (t : Stmt) (c : Scan) :
    scanStmt (s.within (guardsOf as)) t c = perform s (deedsOf (stretchesOfStmt as t)) c := by
  rw [stretchesOfStmt.eq_def, perform_head]
  cases t with
  | expr e => exact scanExpr_eq _ false e c
  | block b => exact scanBlock_eq s as b c
  | returning _ v => exact scanOption_eq _ v c
  | throwing _ e => exact scanExpr_eq _ true e _
  | ifElse _ e y es n =>
    simp [scanStmt, headSteps, scanExpr_eq, scanStmt_eq s as y, scanElseIfs_eq s as es,
      scanElse_eq s as n]
  | whileLoop _ e b => simp [scanStmt, headSteps, scanExpr_eq, scanStmt_eq s as b]
  | doWhile _ b e => simp [scanStmt, headSteps, scanExpr_eq, scanStmt_eq s as b, Stretch.steps]
  | forLoop _ i e n b => simp [scanStmt, headSteps, scanExprs_eq, scanStmt_eq s as b]
  | foreach _ e k v b =>
    cases k <;>
      simp [scanStmt, headSteps, scanExpr_eq, scanStmt_eq s as b,
        loopTarget_eq (s.within (guardsOf as))]
  | switch _ e cs => simp [scanStmt, headSteps, scanExpr_eq, scanCases_eq s as cs]
  | tryCatch _ b cs l =>
    simp [scanStmt, headSteps, guardedBy_eq_within, Setting.within_within, ← guardsOf_append_body,
      scanBlock_eq s _ b, scanCatches_eq s as cs, scanLast_eq s as l]
  | echo _ es => exact scanExprs_eq _ es c
  | unset _ es => simp [scanStmt, headSteps, scanExprs_eq]
  | staticVars _ vs => exact scanStaticVars_eq _ vs c
  | globals _ names => exact (runAll_binding _ c .global names).symm
  | jump | declaration | nop => rfl

theorem scanElse_eq (s : Setting) (as : List Around) (t : Option Stmt) (c : Scan) :
    scanElse (s.within (guardsOf as)) t c = perform s (deedsOf (stretchesOfElse as t)) c := by
  cases t with
  | none => rfl
  | some t => exact scanStmt_eq s as t c

theorem scanStmts_eq (s : Setting) (as : List Around) (ts : List Stmt) (c : Scan) :
    scanStmts (s.within (guardsOf as)) ts c = perform s (deedsOf (stretchesOfStmts as ts)) c := by
  cases ts with
  | nil => rfl
  | cons t ts => simp [scanStmts, stretchesOfStmts, scanStmt_eq s as t, scanStmts_eq s as ts]

theorem scanElseIfs_eq (s : Setting) (as : List Around) (es : List ElseIf) (c : Scan) :
    scanElseIfs (s.within (guardsOf as)) es c =
      perform s (deedsOf (stretchesOfElseIfs as es)) c := by
  cases es with
  | nil => rfl
  | cons e es =>
    simp [scanElseIfs, stretchesOfElseIfs, scanElseIf_eq s as e, scanElseIfs_eq s as es]

theorem scanElseIf_eq (s : Setting) (as : List Around) (e : ElseIf) (c : Scan) :
    scanElseIf (s.within (guardsOf as)) e c = perform s (deedsOf (stretchesOfElseIf as e)) c := by
  cases e with
  | mk e b =>
    simp [scanElseIf, stretchesOfElseIf, Stretch.steps, scanExpr_eq, scanStmt_eq s as b]

theorem scanCases_eq (s : Setting) (as : List Around) (ks : List Case) (c : Scan) :
    scanCases (s.within (guardsOf as)) ks c = perform s (deedsOf (stretchesOfCases as ks)) c := by
  cases ks with
  | nil => rfl
  | cons k ks => simp [scanCases, stretchesOfCases, scanCase_eq s as k, scanCases_eq s as ks]

theorem scanCase_eq (s : Setting) (as : List Around) (k : Case) (c : Scan) :
    scanCase (s.within (guardsOf as)) k c = perform s (deedsOf (stretchesOfCase as k)) c := by
  cases k with
  | mk l b =>
    cases l with
    | none => exact scanStmts_eq s as b c
    | some e =>
      simp [scanCase, stretchesOfCase, Stretch.steps, scanOption, scanExpr_eq,
        scanStmts_eq s as b]

theorem scanCatches_eq (s : Setting) (as : List Around) (ks : List Catch) (c : Scan) :
    scanCatches (s.within (guardsOf as)) ks c =
      perform s (deedsOf (stretchesOfCatches as ks)) c := by
  cases ks with
  | nil => rfl
  | cons k ks =>
    simp [scanCatches, stretchesOfCatches, scanCatch_eq s as k, scanCatches_eq s as ks]

theorem scanCatch_eq (s : Setting) (as : List Around) (k : Catch) (c : Scan) :
    scanCatch (s.within (guardsOf as)) k c = perform s (deedsOf (stretchesOfCatch as k)) c := by
  cases k with
  | mk span types var b =>
    have hb := scanBlock_eq s (as ++ [.clause ⟨span, types, var, b⟩]) b
    simp only [guardsOf_append_clause] at hb
    cases var with
    | none => simp [scanCatch, stretchesOfCatch, Stretch.steps, hb]
    | some var => simp [scanCatch, stretchesOfCatch, Stretch.steps, Step.run, hb]

theorem scanLast_eq (s : Setting) (as : List Around) (b : Option Block) (c : Scan) :
    scanLast (s.within (guardsOf as)) b c = perform s (deedsOf (stretchesOfLast as b)) c := by
  cases b with
  | none => rfl
  | some b => exact scanBlock_eq s as b c

theorem scanBlock_eq (s : Setting) (as : List Around) (b : Block) (c : Scan) :
    scanBlock (s.within (guardsOf as)) b c = perform s (deedsOf (stretchesOfBlock as b)) c := by
  cases b with
  | mk _ ts => exact scanStmts_eq s as ts c

end

theorem scanBlock_deeds (s : Setting) (b : Block) (c : Scan) :
    scanBlock s b c = perform s (deeds b) c := by
  cases b with
  | mk span ts =>
    have hbody := scanBlock_eq s [] ⟨span, ts⟩ c
    rw [guardsOf_nil, Setting.within_nil] at hbody
    exact hbody

theorem summarize_eq (s : Setting) (params : List ParamInfo) (b : Block) :
    (summarize s params b).1 =
      let c := perform s (deeds b) (Scan.start (paramLocals s.index params))
      ⟨c.raised, c.calls.reverse⟩ := by
  rw [summarize, scanBlock_deeds]

theorem Scan.Recording.perform {s : Setting} {P : Scan → Prop} {c : Scan}
    (h : ∀ guards, Recording (s.within guards) P)
    (hvars : ∀ (c : Scan) ls vs, P c → P { c with locals := ls, catchVars := vs })
    (hc : P c) (xs : List (Amid Step)) : P (perform s xs c) :=
  List.foldlRecOn _ _ hc fun _ hc x _ => (h (guardsOf x.around)).run hvars hc x.what

end ContractAudit.Throws
