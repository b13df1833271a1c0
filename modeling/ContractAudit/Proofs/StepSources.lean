import ContractAudit.Proofs.Stretches

/-! Where the steps of an expression come from. Main statement: the walk through an expression comes
to no try statement, and each step is taken by a throw, a call or an assignment on the walk, or is a
variable that is bound unheard. -/
namespace ContractAudit.Throws

/-- What a throw or a call on the walk does. -/
def stepOf? : Visit → Option Step
  | .stmt (.throwing _ e) | .expr (.throwing _ e) => some (.raise e)
  | .expr (.methodCall _ t m _ f _) => some (.call t m f)
  | .expr (.staticCall _ r m _ f) => some (.callStatic r m f)
  | _ => none

/-- A node takes a step: it is a throw, a call or the assignment to a variable. -/
def Origin (v : Visit) (step : Step) : Prop :=
  stepOf? v = some step ∨ ∃ span span' op var value,
    v = .expr (.assign span op (.var span' var) value) ∧ step = .assign var op value

/-- The body and the clauses of a try statement. -/
def tried? : Visit → Option (Block × List Catch)
  | .stmt (.tryCatch _ b ks _) => some (b, ks)
  | _ => none

theorem Origin.not_tried {v : Visit} {step : Step} (h : Origin v step) : tried? v = none := by
  rcases h with h | ⟨_, _, _, _, _, rfl, _⟩
  · unfold stepOf? at h
    split at h <;> cases h
    all_goals rfl
  · rfl

/-- What a loop assigns to, or a variable that is bound unheard. -/
def Step.isTarget : Step → Bool
  | .loop _ | .bound .. => true
  | _ => false

/-- A step at the start or at the end of a clause. -/
def Step.isClausal : Step → Bool
  | .enter .. | .leave => true
  | _ => false

theorem Origin.not_clausal {v : Visit} {step : Step} (h : Origin v step) :
    step.isClausal = false := by
  rcases h with h | ⟨_, _, _, _, _, _, rfl⟩
  · unfold stepOf? at h
    split at h <;> cases h
    all_goals rfl
  · rfl

/-- None of the nodes is a try statement, and each of these steps is taken by one of the nodes or is
that of a target. -/
structure Sourced (vs : List Visit) (steps : List Step) : Prop where
  plain : ∀ v ∈ vs, tried? v = none
  steps : ∀ step ∈ steps, step.isTarget = true ∨ ∃ v ∈ vs, Origin v step

namespace Sourced
variable {vs vs' : List Visit} {steps steps' : List Step} {v : Visit} {step : Step} {e : Expr}
  {r : ClassRef}

theorem not_clausal (h : Sourced vs steps) (hstep : step ∈ steps) : step.isClausal = false := by
  rcases h.steps step hstep with htarget | ⟨v, _, horigin⟩
  · cases step with
    | loop | bound => rfl
    | _ => cases htarget
  · exact horigin.not_clausal

theorem nil : Sourced [] [] := ⟨by simp, by simp⟩

theorem single (h : Origin v step) : Sourced [v] [step] := by
  constructor
  · simpa using h.not_tried
  · simpa using Or.inr h

theorem binding (how : Silent) (vars : List String) : Sourced [] (binding how vars) := by
  refine ⟨by simp, fun step hstep => Or.inl ?_⟩
  obtain ⟨var, _, rfl⟩ := List.mem_map.mp hstep
  rfl

/- The order of the nodes is of no account. -/
theorem among (h : Sourced vs steps) (hv : ∀ v, v ∈ vs ↔ v ∈ vs') : Sourced vs' steps := by
  constructor
  · intro v hmem
    exact h.plain v ((hv v).mpr hmem)
  · intro step hstep
    refine (h.steps step hstep).imp_right ?_
    rintro ⟨v, hmem, horigin⟩
    exact ⟨v, (hv v).mp hmem, horigin⟩

theorem append (h : Sourced vs steps) (h' : Sourced vs' steps') :
    Sourced (vs ++ vs') (steps ++ steps') := by
  constructor
  · intro v hv
    exact (List.mem_append.mp hv).elim (h.plain v) (h'.plain v)
  · intro step hstep
    rcases List.mem_append.mp hstep with hstep | hstep
    · refine (h.steps step hstep).imp_right ?_
      rintro ⟨v, hmem, horigin⟩
      exact ⟨v, List.mem_append_left _ hmem, horigin⟩
    · refine (h'.steps step hstep).imp_right ?_
      rintro ⟨v, hmem, horigin⟩
      exact ⟨v, List.mem_append_right _ hmem, horigin⟩

theorem node (h : Sourced vs steps) (hv : tried? v = none) : Sourced (v :: vs) steps := by
  have hnode : Sourced [v] [] := ⟨by simpa using hv, by simp⟩
  exact hnode.append h

theorem expr (h : Sourced vs steps) : Sourced (.expr e :: vs) steps := h.node rfl

theorem classRef (h : Sourced vs steps) : Sourced (.classRef r :: vs) steps := h.node rfl

/- Variables that are bound after the steps of the nodes. -/
theorem binds (h : Sourced vs steps) (how : Silent) (vars : List String) :
    Sourced vs (steps ++ Throws.binding how vars) :=
  (h.append (binding how vars)).among fun _ => by simp

/- A node that takes a step after those of what is below it. -/
theorem own (h : Sourced vs steps) (hv : Origin v step) : Sourced (v :: vs) (steps ++ [step]) :=
  (h.append (single hv)).among fun _ => by simp [or_comm]

theorem swap (h : Sourced (vs ++ vs') steps) : Sourced (vs' ++ vs) steps :=
  h.among fun _ => by simp [or_comm]

end Sourced

mutual

theorem sourced_expr (operand : Bool) (e : Expr) :
    Sourced (.expr e :: e.inner) (stepsOfExpr operand e) := by
  cases e with
  | var | literal | name | closure => exact Sourced.nil.expr
  | varVar _ e | unary _ _ e | cast _ _ e | word _ _ e => exact (sourced_expr false e).expr
  | throwing _ e =>
    cases operand with
    | true => exact (sourced_expr false e).expr
    | false => exact (Sourced.single (Or.inl rfl)).append (sourced_expr true e)
  | items _ _ is => exact (sourced_items is).expr
  | new _ r as => exact ((sourced_classRef r).append (sourced_args as)).classRef.expr
  | methodCall _ t m as f _ =>
    have hparts := ((sourced_expr false t).append (sourced_member m)).append (sourced_args as)
    cases operand with
    | true =>
      rw [stepsOfExpr, if_pos rfl, List.append_nil]
      exact hparts.expr
    | false => exact hparts.own (Or.inl rfl)
  | staticCall _ r m as f =>
    have hparts := ((sourced_classRef r).append (sourced_member m)).append (sourced_args as)
    cases operand with
    | true =>
      rw [stepsOfExpr, if_pos rfl, List.append_nil]
      exact hparts.classRef.expr
    | false => exact hparts.classRef.own (Or.inl rfl)
  | call _ f as => exact ((sourced_expr false f).append (sourced_args as)).expr
  | property _ t m _ => exact ((sourced_expr false t).append (sourced_member m)).expr
  | staticProperty _ r _ | classConst _ r _ => exact (sourced_classRef r).classRef.expr
  | index _ t i => exact ((sourced_expr false t).append (sourced_option i)).expr
  | assign span op t v =>
    have ht := sourced_expr false t
    have hv := sourced_expr false v
    cases operand with
    | true => exact ((ht.append hv).binds .operand (targetsOf t)).expr
    | false =>
      rw [stepsOfExpr]
      cases hvar : plainVar? t with
      | some var =>
        cases t with
        | var span' =>
          cases hvar
          exact hv.expr.own (Or.inr ⟨_, _, _, _, _, rfl, rfl⟩)
        | _ => cases hvar
      | none => exact (hv.append ((Sourced.binding .indirect (targetsOf t)).append ht)).swap.expr
  | binary _ _ a b => exact ((sourced_expr false a).append (sourced_expr false b)).expr
  | ternary _ b y n =>
    exact (((sourced_expr false b).append (sourced_option y)).append (sourced_expr false n)).expr
  | instanceOf _ e r => exact ((sourced_expr false e).append (sourced_classRef r).classRef).expr
  | isset _ es => exact (sourced_exprs es).expr
  | yielding _ k v _ => exact ((sourced_option k).append (sourced_option v)).expr
  | matching _ e arms => exact ((sourced_expr false e).append (sourced_arms arms)).expr

theorem sourced_option (e : Option Expr) : Sourced (Expr.innerOption e) (stepsOfOption e) := by
  cases e with
  | none => exact .nil
  | some e => exact sourced_expr false e

theorem sourced_exprs (es : List Expr) : Sourced (Expr.innerList es) (stepsOfExprs es) := by
  cases es with
  | nil => exact .nil
  | cons e es => exact (sourced_expr false e).append (sourced_exprs es)

theorem sourced_items (is : List Item) : Sourced (Expr.innerItems is) (stepsOfItems is) := by
  cases is with
  | nil => exact .nil
  | cons i is => exact (sourced_item i).append (sourced_items is)

theorem sourced_item (i : Item) : Sourced i.inner (stepsOfItem i) := by
  cases i with
  | mk k v _ _ => exact (sourced_option k).append (sourced_expr false v)

theorem sourced_args (as : List Arg) : Sourced (Expr.innerArgs as) (stepsOfArgs as) := by
  cases as with
  | nil => exact .nil
  | cons a as => exact (sourced_arg a).append (sourced_args as)

theorem sourced_arg (a : Arg) : Sourced a.inner (stepsOfArg a) := by
  cases a with
  | mk _ v _ => exact sourced_expr false v

theorem sourced_arms (as : List Arm) : Sourced (Expr.innerArms as) (stepsOfArms as) := by
  cases as with
  | nil => exact .nil
  | cons a as => exact (sourced_arm a).append (sourced_arms as)

theorem sourced_arm (a : Arm) : Sourced a.inner (stepsOfArm a) := by
  cases a with
  | cases cs b => exact (sourced_exprs cs).append (sourced_expr false b)
  | default b => exact sourced_expr false b

theorem sourced_member (m : Member) : Sourced m.inner (stepsOfMember m) := by
  cases m with
  | ident => exact .nil
  | dynamic e => exact sourced_expr false e

theorem sourced_classRef (r : ClassRef) : Sourced r.inner (stepsOfClassRef r) := by
  cases r with
  | dynamic e => exact sourced_expr false e
  | named | selfRef | staticRef | parentRef | anonymous => exact .nil

end

theorem sourced_target (e : Expr) : Sourced (.expr e :: e.inner) (stepsOfTarget e) := by
  refine ⟨(sourced_expr false e).plain, fun step hstep => Or.inl ?_⟩
  rcases List.mem_cons.mp hstep with rfl | hstep
  · rfl
  · split at hstep
    · cases hstep
    · obtain ⟨var, _, rfl⟩ := List.mem_map.mp hstep
      rfl

theorem sourced_targets (k : Option Expr) (v : Expr) :
    Sourced (Expr.innerOption k ++ .expr v :: v.inner)
      ((k.toList ++ [v]).flatMap stepsOfTarget) := by
  have hv : Sourced (.expr v :: v.inner) ([v].flatMap stepsOfTarget) := by
    simpa using sourced_target v
  cases k with
  | none => exact hv
  | some k => exact (sourced_target k).append hv

theorem sourced_staticVars (vars : List StaticVar) :
    Sourced (vars.flatMap StaticVar.inner) (stepsOfStaticVars vars) := by
  induction vars with
  | nil => exact .nil
  | cons v vars ih => exact ((sourced_option v.start).binds .static [v.name]).append ih

/-- So do the first steps of a statement. -/
theorem sourced_head {t : Stmt} (ht : tried? (.stmt t) = none) :
    Sourced (.stmt t :: headNodes t) (headSteps t) := by
  cases t with
  | throwing _ e => exact (Sourced.single (Or.inl rfl)).append (sourced_expr true e)
  | expr e | ifElse _ e _ _ _ | whileLoop _ e _ | switch _ e _ =>
    exact (sourced_expr false e).node rfl
  | returning _ v => exact (sourced_option v).node rfl
  | forLoop _ i e n _ =>
    exact (((sourced_exprs i).append (sourced_exprs e)).append (sourced_exprs n)).node rfl
  | foreach _ e k v _ =>
    have hparts := (sourced_expr false e).append (sourced_targets k v)
    refine Sourced.node ?_ rfl
    simpa [headNodes, headSteps] using hparts
  | echo _ es => exact (sourced_exprs es).node rfl
  | unset _ es => exact ((sourced_exprs es).binds .unset _).node rfl
  | staticVars _ vs => exact (sourced_staticVars vs).node rfl
  | globals _ names => exact (Sourced.binding .global names).node rfl
  | tryCatch => cases ht
  | block | doWhile | jump | declaration | nop => exact Sourced.nil.node rfl

end ContractAudit.Throws
