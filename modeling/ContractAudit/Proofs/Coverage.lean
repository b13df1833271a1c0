import ContractAudit.Proofs.TryNesting
import ContractAudit.Throws.Resolver

/-! Which throws and calls of a body its summary has. Main statement: every one that the walk comes
to and whose class the text tells, but for the operand of a throw and for what a loop assigns to. -/
namespace ContractAudit.Throws
variable {vs vs' : List Visit} {steps steps' : List Step} {v : Visit} {step : Step}

/-- A node that is the operand of a throw that counts, or a part of what a loop assigns to. -/
def PassedOver (vs : List Visit) (steps : List Step) (v : Visit) : Prop :=
  (∃ e, v = .expr e ∧ .raise e ∈ steps) ∨
    ∃ span e k t b, Visit.stmt (.foreach span e k t b) ∈ vs ∧
      v ∈ Expr.innerOption k ++ .expr t :: t.inner

/-- All throws and calls among the nodes are taken, but for those passed over. -/
def Heard (vs : List Visit) (steps : List Step) : Prop :=
  ∀ v ∈ vs, ∀ step, stepOf? v = some step → step ∈ steps ∨ PassedOver vs steps v

theorem PassedOver.mono (h : PassedOver vs steps v) (hv : vs ⊆ vs') (hsteps : steps ⊆ steps') :
    PassedOver vs' steps' v := by
  rcases h with ⟨e, rfl, he⟩ | ⟨span, e, k, t, b, hloop, hin⟩
  · exact Or.inl ⟨e, rfl, hsteps he⟩
  · exact Or.inr ⟨span, e, k, t, b, hv hloop, hin⟩

namespace Heard

theorem nil (steps : List Step) : Heard [] steps := by
  intro v hv
  cases hv

theorem more (h : Heard vs steps) (hsteps : steps ⊆ steps') : Heard vs steps' := by
  intro v hv step hstep
  exact (h v hv step hstep).imp (@hsteps _) (·.mono (List.Subset.refl _) hsteps)

theorem append (h : Heard vs steps) (h' : Heard vs' steps') :
    Heard (vs ++ vs') (steps ++ steps') := by
  intro v hv step hstep
  rcases List.mem_append.mp hv with hv | hv
  · exact (h v hv step hstep).imp (List.mem_append_left _)
      (·.mono (List.subset_append_left _ _) (List.subset_append_left _ _))
  · exact (h' v hv step hstep).imp (List.mem_append_right _)
      (·.mono (List.subset_append_right _ _) (List.subset_append_right _ _))

/- A further node: it does nothing, or what it does is taken, or it is passed over. -/
theorem cons (h : Heard vs steps)
    (hv : ∀ step, stepOf? v = some step → step ∈ steps ∨ PassedOver (v :: vs) steps v) :
    Heard (v :: vs) steps := by
  intro x hx step hstep
  rcases List.mem_cons.mp hx with rfl | hx
  · exact hv step hstep
  · exact (h x hx step hstep).imp_right
      (·.mono (List.subset_cons_self _ _) (List.Subset.refl _))

theorem silent (h : Heard vs steps) (hv : stepOf? v = none) : Heard (v :: vs) steps := by
  refine h.cons ?_
  intro step hstep
  rw [hv] at hstep
  cases hstep

end Heard

/- Where an expression is no operand, it counts by itself. -/
theorem heard_expr {e : Expr} (h : Heard e.inner (stepsOfExpr false e)) :
    Heard (.expr e :: e.inner) (stepsOfExpr false e) := by
  cases e with
  | throwing _ e =>
    refine h.cons fun step hstep => ?_
    cases hstep
    exact Or.inl List.mem_cons_self
  | methodCall _ t m as f _ =>
    refine h.cons fun step hstep => ?_
    cases hstep
    exact Or.inl (List.mem_append_right _ (List.mem_singleton_self _))
  | staticCall _ r m as f =>
    refine h.cons fun step hstep => ?_
    cases hstep
    exact Or.inl (List.mem_append_right _ (List.mem_singleton_self _))
  | _ => exact h.silent rfl

mutual

theorem heard_inner (operand : Bool) (e : Expr) : Heard e.inner (stepsOfExpr operand e) := by
  cases e with
  | var | literal | name | closure => exact .nil _
  | varVar _ e | unary _ _ e | cast _ _ e | word _ _ e => exact heard_expr (heard_inner false e)
  | throwing _ e =>
    cases operand with
    | true => exact heard_expr (heard_inner false e)
    | false =>
      have h := (heard_inner true e).more (List.subset_cons_self (Step.raise e) _)
      exact h.cons fun _ _ => Or.inr (Or.inl ⟨e, rfl, List.mem_cons_self⟩)
  | items _ _ is => exact heard_items is
  | new _ r as => exact ((heard_classRef r).append (heard_args as)).silent rfl
  | methodCall _ t m as f _ =>
    exact (((heard_expr (heard_inner false t)).append (heard_member m)).append
      (heard_args as)).more (List.subset_append_left _ _)
  | staticCall _ r m as f =>
    exact ((((heard_classRef r).append (heard_member m)).append (heard_args as)).more
      (List.subset_append_left _ _)).silent rfl
  | call _ f as => exact (heard_expr (heard_inner false f)).append (heard_args as)
  | property _ t m _ => exact (heard_expr (heard_inner false t)).append (heard_member m)
  | staticProperty _ r _ | classConst _ r _ => exact (heard_classRef r).silent rfl
  | index _ t i => exact (heard_expr (heard_inner false t)).append (heard_option i)
  | assign _ op t v =>
    have ht := heard_expr (heard_inner false t)
    have hv := heard_expr (heard_inner false v)
    cases operand with
    | true => exact (ht.append hv).more (List.subset_append_left _ _)
    | false =>
      rw [stepsOfExpr]
      cases hvar : plainVar? t with
      | some var =>
        cases t with
        | var => exact (hv.more (List.subset_append_left _ _)).silent rfl
        | _ => cases hvar
      | none =>
        refine (ht.append hv).more fun step hstep => ?_
        exact List.mem_append.mpr
          ((List.mem_append.mp hstep).symm.imp_right (List.mem_append_right _))
  | binary _ _ a b =>
    exact (heard_expr (heard_inner false a)).append (heard_expr (heard_inner false b))
  | ternary _ b y n =>
    exact ((heard_expr (heard_inner false b)).append (heard_option y)).append
      (heard_expr (heard_inner false n))
  | instanceOf _ e r =>
    exact (heard_expr (heard_inner false e)).append ((heard_classRef r).silent rfl)
  | isset _ es => exact heard_exprs es
  | yielding _ k v _ => exact (heard_option k).append (heard_option v)
  | matching _ e arms => exact (heard_expr (heard_inner false e)).append (heard_arms arms)

theorem heard_option (e : Option Expr) : Heard (Expr.innerOption e) (stepsOfOption e) := by
  cases e with
  | none => exact .nil _
  | some e => exact heard_expr (heard_inner false e)

theorem heard_exprs (es : List Expr) : Heard (Expr.innerList es) (stepsOfExprs es) := by
  cases es with
  | nil => exact .nil _
  | cons e es => exact (heard_expr (heard_inner false e)).append (heard_exprs es)

theorem heard_items (is : List Item) : Heard (Expr.innerItems is) (stepsOfItems is) := by
  cases is with
  | nil => exact .nil _
  | cons i is => exact (heard_item i).append (heard_items is)

theorem heard_item (i : Item) : Heard i.inner (stepsOfItem i) := by
  cases i with
  | mk k v _ _ => exact (heard_option k).append (heard_expr (heard_inner false v))

theorem heard_args (as : List Arg) : Heard (Expr.innerArgs as) (stepsOfArgs as) := by
  cases as with
  | nil => exact .nil _
  | cons a as => exact (heard_arg a).append (heard_args as)

theorem heard_arg (a : Arg) : Heard a.inner (stepsOfArg a) := by
  cases a with
  | mk _ v _ => exact heard_expr (heard_inner false v)

theorem heard_arms (as : List Arm) : Heard (Expr.innerArms as) (stepsOfArms as) := by
  cases as with
  | nil => exact .nil _
  | cons a as => exact (heard_arm a).append (heard_arms as)

theorem heard_arm (a : Arm) : Heard a.inner (stepsOfArm a) := by
  cases a with
  | cases cs b => exact (heard_exprs cs).append (heard_expr (heard_inner false b))
  | default b => exact heard_expr (heard_inner false b)

theorem heard_member (m : Member) : Heard m.inner (stepsOfMember m) := by
  cases m with
  | ident => exact .nil _
  | dynamic e => exact heard_expr (heard_inner false e)

theorem heard_classRef (r : ClassRef) : Heard r.inner (stepsOfClassRef r) := by
  cases r with
  | dynamic e => exact heard_expr (heard_inner false e)
  | named | selfRef | staticRef | parentRef | anonymous => exact .nil _

end

theorem heard_staticVars (vars : List StaticVar) :
    Heard (vars.flatMap StaticVar.inner) (stepsOfStaticVars vars) := by
  induction vars with
  | nil => exact .nil _
  | cons v vars ih =>
    exact ((heard_option v.start).more (List.subset_append_left _ _)).append ih

/- What a loop assigns to is passed over because of the loop itself. -/
theorem heard_foreach (span : Source.Span) (e : Expr) (k : Option Expr) (t : Expr) (b : Stmt) :
    Heard (.stmt (.foreach span e k t b) :: headNodes (.foreach span e k t b))
      (headSteps (.foreach span e k t b)) := by
  have hsubject : Heard (.stmt (.foreach span e k t b) :: .expr e :: e.inner)
      (headSteps (.foreach span e k t b)) :=
    ((heard_expr (heard_inner false e)).more (List.subset_append_left _ _)).silent rfl
  have hparts : Visit.stmt (.foreach span e k t b) :: headNodes (.foreach span e k t b) =
      (.stmt (.foreach span e k t b) :: .expr e :: e.inner) ++
        (Expr.innerOption k ++ .expr t :: t.inner) := by
    simp [headNodes]
  intro v hv step hstep
  rw [hparts] at hv ⊢
  rcases List.mem_append.mp hv with hv | hv
  · exact (hsubject v hv step hstep).imp_right
      (·.mono (List.subset_append_left _ _) (List.Subset.refl _))
  · exact Or.inr (Or.inr ⟨span, e, k, t, b, List.mem_cons_self, hv⟩)

theorem heard_head (t : Stmt) : Heard (.stmt t :: headNodes t) (headSteps t) := by
  cases t with
  | throwing span e =>
    refine Heard.cons (heard_inner false (.throwing span e)) fun step hstep => ?_
    cases hstep
    exact Or.inl List.mem_cons_self
  | expr e | ifElse _ e _ _ _ | whileLoop _ e _ | switch _ e _ =>
    exact (heard_expr (heard_inner false e)).silent rfl
  | returning _ v => exact (heard_option v).silent rfl
  | forLoop _ i e n _ =>
    exact (((heard_exprs i).append (heard_exprs e)).append (heard_exprs n)).silent rfl
  | foreach span e k t b => exact heard_foreach span e k t b
  | echo _ es => exact (heard_exprs es).silent rfl
  | unset _ es => exact ((heard_exprs es).more (List.subset_append_left _ _)).silent rfl
  | staticVars _ vs => exact (heard_staticVars vs).silent rfl
  | block | doWhile | tryCatch | globals | jump | declaration | nop =>
    exact (Heard.nil _).silent rfl

theorem heard_stretch (st : Stretch) : Heard st.nodes st.steps := by
  cases st with
  | stmt t => exact heard_head t
  | eval e => exact heard_expr (heard_inner false e)
  | block | enter => exact (Heard.nil _).silent rfl
  | leave => exact .nil _

theorem heard_block (b : Block) : Heard b.inner (stepsOfBlock b) := by
  rw [← (covers_body b).nodes, stepsOfBlock, deeds, map_what_deedsOf]
  induction stretchesOfStmts [] b.statements with
  | nil => exact .nil _
  | cons x xs ih => exact (heard_stretch x.what).append ih

/-- A scan has all exceptions and calls of an earlier one. -/
structure Scan.Keeps (c c' : Scan) : Prop where
  raised : ∀ o ∈ c.raised, o ∈ c'.raised
  calls : ∀ site ∈ c.calls, site ∈ c'.calls

theorem keeps_recording {c : Scan} (s : Setting) : Scan.Recording s c.Keeps where
  tell _ h := ⟨h.raised, h.calls⟩
  raise _ h := ⟨fun o ho => NameSet.mem_insert.mpr (Or.inr (h.raised o ho)), h.calls⟩
  follow _ _ h := ⟨h.raised, fun x hx => List.mem_cons_of_mem _ (h.calls x hx)⟩

theorem keeps_perform (s : Setting) (c : Scan) (xs : List (Amid Step)) :
    c.Keeps (perform s xs c) :=
  Scan.Recording.perform (fun guards => keeps_recording (s.within guards))
    (fun _ _ _ h => ⟨h.raised, h.calls⟩) ⟨fun _ ho => ho, fun _ hx => hx⟩ xs

/- Where catching does not count, every step is taken in the same setting. -/
theorem perform_takes {s : Setting} {b : Block} (hs : s.honorCatch = false)
    (h : step ∈ stepsOfBlock b) (c : Scan) :
    ∃ c', (step.run s c').Keeps (perform s (deeds b) c) := by
  obtain ⟨x, hx, rfl⟩ := List.mem_map.mp h
  obtain ⟨before, after, hsplit⟩ := List.append_of_mem hx
  have hwithin : s.within (guardsOf x.around) = s := by simp [Setting.within, hs]
  rw [hsplit, perform_append, perform_cons, hwithin]
  exact ⟨_, keeps_perform s _ after⟩

/-- The class of the object that a throw makes. -/
def thrownClass? (s : Setting) : Visit → Option String
  | .stmt (.throwing _ (.new _ of _)) | .expr (.throwing _ (.new _ of _)) => s.classOf of
  | _ => none

/-- The class of `$this` or of an object made on the spot. -/
def receiver? (s : Setting) : Expr → Option String
  | .var _ var => if var = "this" then some s.thisClass else none
  | .new _ of _ => s.classOf of
  | _ => none

/-- The class in which a call looks its method up, and the method. -/
def called? (s : Setting) : Visit → Option (String × String)
  | .expr (.methodCall _ t (.ident method) _ false _) => (receiver? s t).map (·, method)
  | .expr (.staticCall _ of (.ident method) _ false) => (s.classOf of).map (·, method)
  | _ => none

section
variable {s : Setting} {c : Scan} {k method : String}

theorem stepOf?_of_thrownClass? (h : thrownClass? s v = some k) :
    ∃ span of args, stepOf? v = some (.raise (.new span of args)) ∧ s.classOf of = some k := by
  unfold thrownClass? at h
  split at h
  · exact ⟨_, _, _, rfl, h⟩
  · exact ⟨_, _, _, rfl, h⟩
  · cases h

theorem raise_recorded {span : Source.Span} {of : ClassRef} {args : List Arg}
    (hs : s.caught = []) (h : s.classOf of = some k) :
    canonical s.index k ∈ ((Step.raise (.new span of args)).run s c).raised := by
  simp [Step.run, Scan.recordThrow, h, Scan.raise, isCaught, hs]

/-- A call of the method, looked up in the class, is among the calls. -/
def Scan.HasCall (c : Scan) (k method : String) : Prop :=
  ∃ site ∈ c.calls, site.lookupClass = k ∧ site.method = method

theorem hasCall_follow (this : String) : (c.follow s this k method).HasCall k method :=
  ⟨_, List.mem_cons_self, rfl, rfl⟩

theorem hasCall_callOn {t : Expr} (h : receiver? s t = some k) :
    (c.callOn s t method).HasCall k method := by
  unfold receiver? at h
  split at h
  · next var =>
    split at h
    · next hthis =>
      cases h
      simp only [Scan.callOn, hthis, if_true]
      exact hasCall_follow _
    · cases h
  · simp only [Scan.callOn, h]
    exact hasCall_follow _
  · cases h

theorem hasCall_callStatic {of : ClassRef} (h : s.classOf of = some k) :
    (c.callStatic s of method).HasCall k method := by
  cases of with
  | named | selfRef | staticRef =>
    cases h
    exact hasCall_follow _
  | parentRef =>
    have h : s.parent = some k := h
    simp only [Scan.callStatic, h]
    exact hasCall_follow _
  | dynamic | anonymous => cases h

theorem stepOf?_of_called? (h : called? s v = some (k, method)) :
    ∃ step, stepOf? v = some step ∧ ∀ c, (step.run s c).HasCall k method := by
  unfold called? at h
  split at h
  · obtain ⟨k', hk, heq⟩ := Option.map_eq_some_iff.mp h
    cases heq
    exact ⟨_, rfl, fun _ => hasCall_callOn hk⟩
  · obtain ⟨k', hk, heq⟩ := Option.map_eq_some_iff.mp h
    cases heq
    exact ⟨_, rfl, fun _ => hasCall_callStatic hk⟩
  · cases h

end

/-- Where catching does not count, the summary has the class of every object that a throw of the
walk makes, and every call of the walk whose class the text tells, unless it is passed over. -/
theorem raises_and_calls_recorded (i : Index) (c : Config) (hc : c.honorCatch = false) (f : Frame)
    (params : List ParamInfo) (b : Block) {v : Visit} (hv : v ∈ b.inner)
    (hheard : ¬ PassedOver b.inner (stepsOfBlock b) v) :
    (∀ k, thrownClass? (settingOf i c f) v = some k →
      canonical i k ∈ (summarize (settingOf i c f) params b).1.raised) ∧
    ∀ k method, called? (settingOf i c f) v = some (k, method) →
      ∃ site ∈ (summarize (settingOf i c f) params b).1.calls,
        site.lookupClass = k ∧ site.method = method := by
  -- what the node does is taken, and what comes after it keeps the outcome
  have htaken {step : Step} (hstep : stepOf? v = some step) (start : Scan) :
      ∃ c', (step.run (settingOf i c f) c').Keeps (perform (settingOf i c f) (deeds b) start) :=
    perform_takes hc ((heard_block b v hv step hstep).resolve_right hheard) start
  rw [summarize_eq]
  constructor
  · intro k hk
    obtain ⟨span, of, args, hstep, hof⟩ := stepOf?_of_thrownClass? hk
    obtain ⟨c', hkeep⟩ := htaken hstep _
    exact hkeep.raised _ (raise_recorded rfl hof)
  · intro k method hk
    obtain ⟨step, hstep, hcall⟩ := stepOf?_of_called? hk
    obtain ⟨c', hkeep⟩ := htaken hstep _
    obtain ⟨site, hsite, hsame⟩ := hcall c'
    exact ⟨site, List.mem_reverse.mpr (hkeep.calls _ hsite), hsame⟩

namespace Sample

/-- A method of a class `A`, with nothing else declared. -/
def setting : Setting := settingOf ⟨[], []⟩ {} ⟨"A", Builtin.method "A" "run" [] "void"⟩

/-- A call of a method on `$this`. -/
def onThis (method : String) : Expr :=
  .methodCall default (.var default "this") (.ident method) [] false false

def made (arg : Expr) : Expr :=
  .new default (.named ⟨"E", some "E", default⟩) [⟨none, arg, false⟩]

/-- `throw new E($this->g());` -/
def throwMade : Block := ⟨default, [.throwing default (made (onThis "g"))]⟩

/-- `throw $this->g();` -/
def throwCalled : Block := ⟨default, [.throwing default (onThis "g")]⟩

/-- `foreach ($xs as $this->g()->value);` -/
def assignCalled : Block :=
  ⟨default, [.foreach default (.var default "xs") none
    (.property default (onThis "g") (.ident "value") false) (.nop default)]⟩

end Sample

theorem raises_and_calls_recorded_sample :
    canonical ⟨[], []⟩ "E" ∈ (summarize Sample.setting [] Sample.throwMade).1.raised ∧
    ∃ site ∈ (summarize Sample.setting [] Sample.throwMade).1.calls,
      site.lookupClass = "A" ∧ site.method = "g" := by
  have hthrow := raises_and_calls_recorded ⟨[], []⟩ {} rfl
    ⟨"A", Builtin.method "A" "run" [] "void"⟩ [] Sample.throwMade
    (v := .stmt (.throwing default (Sample.made (Sample.onThis "g"))))
    (by simp [Sample.throwMade, Block.inner, Stmt.innerList])
    (by simp [PassedOver, Sample.throwMade, Sample.made, Sample.onThis, Block.inner,
      Stmt.innerList, Stmt.inner, Expr.inner, ClassRef.inner, Member.inner, Expr.innerArgs,
      Arg.inner])
  have hcall := raises_and_calls_recorded ⟨[], []⟩ {} rfl
    ⟨"A", Builtin.method "A" "run" [] "void"⟩ [] Sample.throwMade
    (v := .expr (Sample.onThis "g"))
    (by simp [Sample.throwMade, Sample.made, Block.inner, Stmt.innerList, Stmt.inner, Expr.inner,
      ClassRef.inner, Expr.innerArgs, Arg.inner])
    (by simp [PassedOver, Sample.throwMade, Sample.made, Sample.onThis, Block.inner, Stmt.innerList,
      Stmt.inner, Expr.inner, ClassRef.inner, Member.inner, Expr.innerArgs, Arg.inner, stepsOfBlock,
      deeds, stretchesOfStmts, stretchesOfStmt, Stretch.steps, headSteps, stepsOfExpr,
      stepsOfClassRef, stepsOfArgs, stepsOfArg, stepsOfMember])
  exact ⟨hthrow.1 "E" rfl, hcall.2 "A" "g" rfl⟩

/- The two kinds that are passed over: both bodies call `g`, and neither summary has a call. -/
theorem operand_and_target_not_recorded :
    (∃ v ∈ Sample.throwCalled.inner, called? Sample.setting v = some ("A", "g")) ∧
    (summarize Sample.setting [] Sample.throwCalled).1.calls = [] ∧
    (∃ v ∈ Sample.assignCalled.inner, called? Sample.setting v = some ("A", "g")) ∧
    (summarize Sample.setting [] Sample.assignCalled).1.calls = [] := by
  refine ⟨⟨.expr (Sample.onThis "g"), ?_, rfl⟩, rfl, ⟨.expr (Sample.onThis "g"), ?_, rfl⟩, rfl⟩
  · simp [Sample.throwCalled, Block.inner, Stmt.innerList, Stmt.inner]
  · simp [Sample.assignCalled, Block.inner, Stmt.innerList, Stmt.inner, Expr.inner]

end ContractAudit.Throws
