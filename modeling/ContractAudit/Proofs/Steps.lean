import ContractAudit.Throws.Summary

/-! What an expression does, as a list of steps that the tree alone tells. Main statement: to go
through an expression is to take its steps one after the other. -/
namespace ContractAudit.Throws

/-- A way to bind a variable that is not heard. -/
inductive Silent where
  /-- Within a pattern of targets, or a loop's variable that is taken by reference. -/
  | indirect
  /-- By an assignment that is the operand of a throw. -/
  | operand
  | global
  | static
  | unset
deriving DecidableEq

/-- A thing that a body does: its summary depends on it, or it binds a variable unheard. -/
inductive Step where
  | raise (operand : Expr)
  | call (target : Expr) (method : Member) (firstClass : Bool)
  | callStatic (of : ClassRef) (method : Member) (firstClass : Bool)
  | assign (var : String) (op : AssignOp) (value : Expr)
  | loop (target : Expr)
  | enter (var : String) (types : List String)
  | leave
  | bound (var : String) (how : Silent)

def Step.run (s : Setting) : Step → Scan → Scan
  | raise e => Scan.recordThrow s e
  | call t m f => Scan.recordCall s t m f
  | callStatic r m f => Scan.recordStaticCall s r m f
  | assign var op v => Scan.assignTo s var op v
  | loop t => Scan.loopTarget t
  | enter var types => Scan.pushCatch var types
  | leave => Scan.popCatch
  | bound .. => id

/-- Takes steps one after the other. -/
def runAll (s : Setting) (steps : List Step) (c : Scan) : Scan :=
  steps.foldl (fun c step => step.run s c) c

def binding (how : Silent) (vars : List String) : List Step := vars.map (.bound · how)

section
variable (s : Setting) (c : Scan)

@[simp] theorem runAll_nil : runAll s [] c = c := rfl

@[simp] theorem runAll_cons (step : Step) (steps : List Step) :
    runAll s (step :: steps) c = runAll s steps (step.run s c) := rfl

@[simp] theorem runAll_append (steps steps' : List Step) :
    runAll s (steps ++ steps') c = runAll s steps' (runAll s steps c) := List.foldl_append

@[simp] theorem runAll_binding (how : Silent) (vars : List String) :
    runAll s (binding how vars) c = c := by
  induction vars with
  | nil => rfl
  | cons var vars ih => exact ih

end

/-- The name of a plain variable. -/
def plainVar? : Expr → Option String
  | .var _ var => some var
  | _ => none

mutual

/-- The variables that an assignment to a target binds. -/
def targetsOf : Expr → List String
  | .var _ var => [var]
  | .unary _ .ref e => targetsOf e
  | .items _ _ is => targetsOfItems is
  | _ => []

def targetsOfItems : List Item → List String
  | [] => []
  | i :: is => targetsOfItem i ++ targetsOfItems is

def targetsOfItem : Item → List String
  | ⟨_, v, _, _⟩ => targetsOf v

end

mutual

/-- The steps of an expression; the operand of a throw takes none by itself. -/
def stepsOfExpr (operand : Bool) : Expr → List Step
  | .var .. | .literal .. | .name .. | .closure .. => []
  | .varVar _ e | .unary _ _ e | .cast _ _ e | .word _ _ e => stepsOfExpr false e
  | .throwing _ e =>
    if operand then stepsOfExpr false e else .raise e :: stepsOfExpr true e
  | .items _ _ is => stepsOfItems is
  | .new _ r as => stepsOfClassRef r ++ stepsOfArgs as
  | .methodCall _ t m as f _ =>
    stepsOfExpr false t ++ stepsOfMember m ++ stepsOfArgs as ++
      if operand then [] else [.call t m f]
  | .staticCall _ r m as f =>
    stepsOfClassRef r ++ stepsOfMember m ++ stepsOfArgs as ++
      if operand then [] else [.callStatic r m f]
  | .call _ f as => stepsOfExpr false f ++ stepsOfArgs as
  | .property _ t m _ => stepsOfExpr false t ++ stepsOfMember m
  | .staticProperty _ r _ | .classConst _ r _ => stepsOfClassRef r
  | .index _ t i => stepsOfExpr false t ++ stepsOfOption i
  | .assign _ op t v =>
    if operand then stepsOfExpr false t ++ stepsOfExpr false v ++ binding .operand (targetsOf t)
    else stepsOfExpr false v ++ match plainVar? t with
      | some var => [.assign var op v]
      | none => binding .indirect (targetsOf t) ++ stepsOfExpr false t
  | .binary _ _ a b => stepsOfExpr false a ++ stepsOfExpr false b
  | .ternary _ b y n => stepsOfExpr false b ++ stepsOfOption y ++ stepsOfExpr false n
  | .instanceOf _ e r => stepsOfExpr false e ++ stepsOfClassRef r
  | .isset _ es => stepsOfExprs es
  | .yielding _ k v _ => stepsOfOption k ++ stepsOfOption v
  | .matching _ e arms => stepsOfExpr false e ++ stepsOfArms arms

def stepsOfOption : Option Expr → List Step
  | none => []
  | some e => stepsOfExpr false e

def stepsOfExprs : List Expr → List Step
  | [] => []
  | e :: es => stepsOfExpr false e ++ stepsOfExprs es

def stepsOfItems : List Item → List Step
  | [] => []
  | i :: is => stepsOfItem i ++ stepsOfItems is

def stepsOfItem : Item → List Step
  | ⟨k, v, _, _⟩ => stepsOfOption k ++ stepsOfExpr false v

def stepsOfArgs : List Arg → List Step
  | [] => []
  | a :: as => stepsOfArg a ++ stepsOfArgs as

def stepsOfArg : Arg → List Step
  | ⟨_, v, _⟩ => stepsOfExpr false v

def stepsOfArms : List Arm → List Step
  | [] => []
  | a :: as => stepsOfArm a ++ stepsOfArms as

def stepsOfArm : Arm → List Step
  | .cases cs b => stepsOfExprs cs ++ stepsOfExpr false b
  | .default b => stepsOfExpr false b

def stepsOfMember : Member → List Step
  | .ident _ => []
  | .dynamic e => stepsOfExpr false e

def stepsOfClassRef : ClassRef → List Step
  | .dynamic e => stepsOfExpr false e
  | .named _ | .selfRef _ | .staticRef _ | .parentRef _ | .anonymous _ => []

end

theorem scanExpr_assign (s : Setting) (span : Source.Span) (op : AssignOp) (t v : Expr)
    (c : Scan) : scanExpr s false (.assign span op t v) c =
      match plainVar? t with
      | some var => (scanExpr s false v c).assignTo s var op v
      | none => scanExpr s false t (scanExpr s false v c) := by
  cases t <;> rfl

mutual

theorem scanExpr_eq (s : Setting) (operand : Bool) (e : Expr) (c : Scan) :
    scanExpr s operand e c = runAll s (stepsOfExpr operand e) c := by
  cases e with
  | var | literal | name | closure => rfl
  | varVar _ e | unary _ _ e | cast _ _ e | word _ _ e => exact scanExpr_eq s false e c
  | throwing _ e =>
    cases operand with
    | true => exact scanExpr_eq s false e c
    | false => simp [scanExpr, stepsOfExpr, scanExpr_eq s true e, Step.run]
  | items _ _ is => exact scanItems_eq s is c
  | new _ r as => simp [scanExpr, stepsOfExpr, scanClassRef_eq s r, scanArgs_eq s as]
  | methodCall _ t m as f _ =>
    cases operand <;>
      simp [scanExpr, stepsOfExpr, scanExpr_eq s false t, scanMember_eq s m, scanArgs_eq s as,
        Step.run]
  | staticCall _ r m as f =>
    cases operand <;>
      simp [scanExpr, stepsOfExpr, scanClassRef_eq s r, scanMember_eq s m, scanArgs_eq s as,
        Step.run]
  | call _ f as => simp [scanExpr, stepsOfExpr, scanExpr_eq s false f, scanArgs_eq s as]
  | property _ t m _ => simp [scanExpr, stepsOfExpr, scanExpr_eq s false t, scanMember_eq s m]
  | staticProperty _ r _ | classConst _ r _ => exact scanClassRef_eq s r c
  | index _ t i => simp [scanExpr, stepsOfExpr, scanExpr_eq s false t, scanOption_eq s i]
  | assign _ op t v =>
    cases operand with
    | true => simp [scanExpr, stepsOfExpr, scanExpr_eq s false t, scanExpr_eq s false v]
    | false =>
      rw [scanExpr_assign]
      cases ht : plainVar? t with
      | some var => simp [stepsOfExpr, ht, scanExpr_eq s false v, Step.run]
      | none => simp [stepsOfExpr, ht, scanExpr_eq s false v, scanExpr_eq s false t]
  | binary _ _ a b => simp [scanExpr, stepsOfExpr, scanExpr_eq s false a, scanExpr_eq s false b]
  | ternary _ b y n =>
    simp [scanExpr, stepsOfExpr, scanExpr_eq s false b, scanOption_eq s y, scanExpr_eq s false n]
  | instanceOf _ e r => simp [scanExpr, stepsOfExpr, scanExpr_eq s false e, scanClassRef_eq s r]
  | isset _ es => exact scanExprs_eq s es c
  | yielding _ k v _ => simp [scanExpr, stepsOfExpr, scanOption_eq s k, scanOption_eq s v]
  | matching _ e arms => simp [scanExpr, stepsOfExpr, scanExpr_eq s false e, scanArms_eq s arms]

theorem scanOption_eq (s : Setting) (e : Option Expr) (c : Scan) :
    scanOption s e c = runAll s (stepsOfOption e) c := by
  cases e with
  | none => rfl
  | some e => exact scanExpr_eq s false e c

theorem scanExprs_eq (s : Setting) (es : List Expr) (c : Scan) :
    scanExprs s es c = runAll s (stepsOfExprs es) c := by
  cases es with
  | nil => rfl
  | cons e es => simp [scanExprs, stepsOfExprs, scanExpr_eq s false e, scanExprs_eq s es]

theorem scanItems_eq (s : Setting) (is : List Item) (c : Scan) :
    scanItems s is c = runAll s (stepsOfItems is) c := by
  cases is with
  | nil => rfl
  | cons i is => simp [scanItems, stepsOfItems, scanItem_eq s i, scanItems_eq s is]

theorem scanItem_eq (s : Setting) (i : Item) (c : Scan) :
    scanItem s i c = runAll s (stepsOfItem i) c := by
  cases i with
  | mk k v _ _ => simp [scanItem, stepsOfItem, scanOption_eq s k, scanExpr_eq s false v]

theorem scanArgs_eq (s : Setting) (as : List Arg) (c : Scan) :
    scanArgs s as c = runAll s (stepsOfArgs as) c := by
  cases as with
  | nil => rfl
  | cons a as => simp [scanArgs, stepsOfArgs, scanArg_eq s a, scanArgs_eq s as]

theorem scanArg_eq (s : Setting) (a : Arg) (c : Scan) :
    scanArg s a c = runAll s (stepsOfArg a) c := by
  cases a with
  | mk _ v _ => exact scanExpr_eq s false v c

theorem scanArms_eq (s : Setting) (as : List Arm) (c : Scan) :
    scanArms s as c = runAll s (stepsOfArms as) c := by
  cases as with
  | nil => rfl
  | cons a as => simp [scanArms, stepsOfArms, scanArm_eq s a, scanArms_eq s as]

theorem scanArm_eq (s : Setting) (a : Arm) (c : Scan) :
    scanArm s a c = runAll s (stepsOfArm a) c := by
  cases a with
  | cases cs b => simp [scanArm, stepsOfArm, scanExprs_eq s cs, scanExpr_eq s false b]
  | default b => exact scanExpr_eq s false b c

theorem scanMember_eq (s : Setting) (m : Member) (c : Scan) :
    scanMember s m c = runAll s (stepsOfMember m) c := by
  cases m with
  | ident => rfl
  | dynamic e => exact scanExpr_eq s false e c

theorem scanClassRef_eq (s : Setting) (r : ClassRef) (c : Scan) :
    scanClassRef s r c = runAll s (stepsOfClassRef r) c := by
  cases r with
  | dynamic e => exact scanExpr_eq s false e c
  | named | selfRef | staticRef | parentRef | anonymous => rfl

end

/-- A variable of a loop is bound by the step itself, the variables of any other target unheard. -/
def stepsOfTarget (target : Expr) : List Step :=
  .loop target :: match plainVar? target with
    | some _ => []
    | none => binding .indirect (targetsOf target)

theorem loopTarget_eq (s : Setting) (target : Expr) (c : Scan) :
    c.loopTarget target = runAll s (stepsOfTarget target) c := by
  rw [stepsOfTarget, runAll_cons]
  split
  · rfl
  · exact (runAll_binding s _ .indirect _).symm

def stepsOfStaticVars (vars : List StaticVar) : List Step :=
  vars.flatMap fun v => stepsOfOption v.start ++ binding .static [v.name]

theorem scanStaticVars_eq (s : Setting) (vars : List StaticVar) (c : Scan) :
    scanStaticVars s vars c = runAll s (stepsOfStaticVars vars) c := by
  induction vars generalizing c with
  | nil => rfl
  | cons v vars ih =>
    rw [stepsOfStaticVars, List.flatMap_cons, runAll_append, runAll_append, ← scanOption_eq,
      runAll_binding]
    exact ih _

/-- A property that holds on while things are told, raised and called. A call binds `$this` to the
class that the body has, or to the one that the method is looked up in. -/
structure Scan.Recording (s : Setting) (P : Scan → Prop) : Prop where
  tell {c : Scan} (e : Event) : P c → P (c.tell e)
  raise {c : Scan} (name : String) :
    P c → P { c with raised := c.raised.insert (canonical s.index name) }
  follow {c : Scan} {this lookup : String} (method : String)
    (h : this = s.thisClass ∨ this = lookup) : P c → P (c.follow s this lookup method)

namespace Scan.Recording
variable {s : Setting} {P : Scan → Prop} {c : Scan}

theorem raised (h : Recording s P) (hc : P c) (name : String) : P (c.raise s name) := by
  unfold Scan.raise
  dsimp only
  split
  · exact h.tell _ hc
  · exact h.raise name hc

theorem recordThrow (h : Recording s P) (hc : P c) (operand : Expr) :
    P (c.recordThrow s operand) := by
  unfold Scan.recordThrow
  split
  · split
    · exact h.raised hc _
    · exact h.tell _ hc
  · split
    · exact List.foldlRecOn _ _ hc fun _ hc t _ => h.raised hc t
    · exact h.tell _ hc
    · exact h.tell _ hc
  · exact h.tell _ hc

theorem callOn (h : Recording s P) (hc : P c) (target : Expr) (method : String) :
    P (c.callOn s target method) := by
  unfold Scan.callOn
  split
  · split
    · exact h.follow method (Or.inl rfl) hc
    · split
      · exact List.foldlRecOn _ _ hc fun _ hc k _ => h.follow method (Or.inr rfl) hc
      · exact h.tell _ hc
  · split
    · exact h.follow method (Or.inr rfl) hc
    · exact h.tell _ hc
  · exact h.tell _ hc

theorem callStatic (h : Recording s P) (hc : P c) (of : ClassRef) (method : String) :
    P (c.callStatic s of method) := by
  cases of with
  | named => exact h.follow method (Or.inr rfl) hc
  | selfRef | staticRef => exact h.follow method (Or.inl rfl) hc
  | parentRef =>
    unfold Scan.callStatic
    dsimp only
    split
    · exact h.follow method (Or.inl rfl) hc
    · exact h.tell _ hc
  | dynamic | anonymous => exact h.tell _ hc

theorem recordCall (h : Recording s P) (hc : P c) (target : Expr) (m : Member) (firstClass : Bool) :
    P (c.recordCall s target m firstClass) := by
  cases m with
  | dynamic => exact h.tell _ hc
  | ident method =>
    cases firstClass with
    | true => exact h.tell _ hc
    | false => exact h.callOn hc target method

theorem recordStaticCall (h : Recording s P) (hc : P c) (of : ClassRef) (m : Member)
    (firstClass : Bool) : P (c.recordStaticCall s of m firstClass) := by
  cases m with
  | dynamic => exact hc
  | ident method =>
    cases firstClass with
    | true => exact h.tell _ hc
    | false => exact h.callStatic hc of method

/-- The other steps change only what is known of variables. -/
theorem run (h : Recording s P)
    (hvars : ∀ (c : Scan) ls vs, P c → P { c with locals := ls, catchVars := vs })
    (hc : P c) (step : Step) : P (step.run s c) := by
  cases step with
  | raise e => exact h.recordThrow hc e
  | call t m f => exact h.recordCall hc t m f
  | callStatic r m f => exact h.recordStaticCall hc r m f
  | assign var op v =>
    simp only [Step.run, Scan.assignTo]
    split
    · exact hvars c _ _ hc
    · exact hvars c _ _ hc
  | loop t =>
    cases t with
    | var => exact hvars c _ _ hc
    | _ => exact hc
  | enter => exact hvars c _ _ hc
  | leave => exact hvars c _ _ hc
  | bound => exact hc

end Scan.Recording

end ContractAudit.Throws
