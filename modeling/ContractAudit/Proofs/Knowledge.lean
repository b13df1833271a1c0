import ContractAudit.Proofs.Stretches

/-! What a step does, given what is known of the variables. Main statements: a step raises and calls
what its text and this knowledge tell, and what is known after it depends on nothing else; neither
does what is caught around it make a difference to the calls and to the knowledge. -/
namespace ContractAudit.Throws
variable {s s' : Setting} {c : Scan} {o : String}

/-- What is known of the variables on the way through a body. -/
structure Known where
  locals : List (String × List String)
  catchVars : List CatchVar

def Scan.known (c : Scan) : Known := ⟨c.locals, c.catchVars⟩

/-- A scan that knows this and has found nothing. -/
def Known.scan (k : Known) : Scan := ⟨k.locals, k.catchVars, ∅, [], []⟩

/-- What is known after a step. -/
def Step.learn (s : Setting) (step : Step) (k : Known) : Known := (step.run s k.scan).known

/-- Where a call goes. -/
structure Callee where
  thisClass : String
  lookupClass : String
  method : String
deriving DecidableEq

def Callee.site (caught : List String) (t : Callee) : CallSite :=
  ⟨t.thisClass, t.lookupClass, t.method, caught⟩

/-- The class of an object, itself bound to `$this`. -/
def Callee.on (method k : String) : Callee := ⟨k, k, method⟩

/-- The classes that a step raises: that of an object made on the spot, or those of the clause that
binds the variable. -/
def Step.raises (s : Setting) (k : Known) : Step → List String
  | .raise (.new _ of _) => (s.classOf of).toList
  | .raise (.var _ var) => ((k.catchVars.find? (·.name == var)).bind (·.types)).getD []
  | _ => []

/-- The classes of an object that a method is called on. -/
def receivers (s : Setting) (k : Known) : Expr → List String
  | .var _ var => if var = "this" then [s.thisClass] else (k.locals.lookup var).getD []
  | .new _ of _ => (s.classOf of).toList
  | _ => []

/-- The class that `$this` is bound to by a static call. -/
def boundBy (s : Setting) : ClassRef → String → String
  | .named _, k => k
  | _, _ => s.thisClass

/-- The calls of a step. -/
def Step.callees (s : Setting) (k : Known) : Step → List Callee
  | .call t (.ident method) false => (receivers s k t).map (.on method)
  | .callStatic of (.ident method) false =>
    (s.classOf of).toList.map fun k => ⟨boundBy s of k, k, method⟩
  | _ => []

theorem known_recording : Scan.Recording s fun c' => c'.known = c.known where
  tell _ h := h
  raise _ h := h
  follow _ _ h := h

theorem learn_raise (k : Known) (e : Expr) : (Step.raise e).learn s k = k :=
  known_recording.recordThrow (c := k.scan) rfl e

theorem learn_call (k : Known) (t : Expr) (m : Member) (f : Bool) :
    (Step.call t m f).learn s k = k :=
  known_recording.recordCall (c := k.scan) rfl t m f

theorem learn_callStatic (k : Known) (of : ClassRef) (m : Member) (f : Bool) :
    (Step.callStatic of m f).learn s k = k :=
  known_recording.recordStaticCall (c := k.scan) rfl of m f

theorem run_known (step : Step) : (step.run s c).known = step.learn s c.known := by
  cases step with
  | raise e => exact (known_recording.recordThrow rfl e).trans (learn_raise _ e).symm
  | call t m f => exact (known_recording.recordCall rfl t m f).trans (learn_call _ t m f).symm
  | callStatic of m f =>
    exact (known_recording.recordStaticCall rfl of m f).trans (learn_callStatic _ of m f).symm
  | assign var op v =>
    simp only [Step.learn, Step.run, Scan.assignTo]
    cases Scan.made? s op v <;> rfl
  | loop t => cases t <;> rfl
  | enter | leave | bound => rfl

theorem calls_foldl_follow (classes : List String) (method : String) :
    (classes.foldl (fun c k => c.follow s k k method) c).calls.reverse =
      c.calls.reverse ++ classes.map fun k => (Callee.on method k).site s.caught := by
  induction classes generalizing c with
  | nil => simp
  | cons k classes ih =>
    rw [List.foldl_cons, ih]
    simp [Scan.follow, Callee.site, Callee.on]

theorem calls_callOn (t : Expr) (method : String) : (c.callOn s t method).calls.reverse =
    c.calls.reverse ++ (receivers s c.known t).map fun k => (Callee.on method k).site s.caught := by
  cases t with
  | var _ var =>
    by_cases hthis : var = "this"
    · simp [Scan.callOn, receivers, hthis, Scan.follow, Callee.site, Callee.on]
    · have hknown : c.known.locals.lookup var = c.classes? var := rfl
      simp only [Scan.callOn, receivers, hthis, if_false, hknown]
      cases c.classes? var with
      | none => simp [Scan.tell]
      | some classes => exact calls_foldl_follow classes method
  | new _ of _ =>
    cases hof : s.classOf of <;>
      simp [Scan.callOn, receivers, hof, Scan.follow, Scan.tell, Callee.site, Callee.on]
  | _ => simp [Scan.callOn, receivers, Scan.tell]

theorem calls_callStatic (of : ClassRef) (method : String) :
    (c.callStatic s of method).calls.reverse = c.calls.reverse ++
      (s.classOf of).toList.map fun k => Callee.site s.caught ⟨boundBy s of k, k, method⟩ := by
  cases of with
  | named | selfRef | staticRef =>
    simp [Scan.callStatic, Setting.classOf, boundBy, Scan.follow, Callee.site]
  | parentRef =>
    cases hparent : s.parent <;>
      simp [Scan.callStatic, Setting.classOf, hparent, boundBy, Scan.follow, Scan.tell, Callee.site]
  | dynamic | anonymous => simp [Scan.callStatic, Setting.classOf, Scan.tell]

theorem calls_raise (name : String) : (c.raise s name).calls = c.calls := by
  unfold Scan.raise
  dsimp only
  split <;> rfl

theorem calls_recordThrow (e : Expr) : (c.recordThrow s e).calls = c.calls := by
  unfold Scan.recordThrow
  split
  · split
    · exact calls_raise _
    · rfl
  · split
    · exact List.foldlRecOn (motive := fun c' : Scan => c'.calls = c.calls) _ _ rfl
        fun _ hc t _ => (calls_raise t).trans hc
    · rfl
    · rfl
  · rfl

theorem run_calls (step : Step) : (step.run s c).calls.reverse =
    c.calls.reverse ++ (step.callees s c.known).map (·.site s.caught) := by
  cases step with
  | raise e =>
    have hnone : (Step.raise e).callees s c.known = [] := by cases e <;> rfl
    rw [hnone, List.map_nil, List.append_nil]
    exact congrArg List.reverse (calls_recordThrow e)
  | call t m f =>
    cases m with
    | dynamic => simp [Step.run, Scan.recordCall, Step.callees, Scan.tell]
    | ident method =>
      cases f with
      | true => simp [Step.run, Scan.recordCall, Step.callees, Scan.tell]
      | false =>
        rw [Step.callees, List.map_map]
        exact calls_callOn t method
  | callStatic of m f =>
    cases m with
    | dynamic => simp [Step.run, Scan.recordStaticCall, Step.callees]
    | ident method =>
      cases f with
      | true => simp [Step.run, Scan.recordStaticCall, Step.callees, Scan.tell]
      | false =>
        rw [Step.callees, List.map_map]
        exact calls_callStatic of method
  | assign var op v =>
    simp only [Step.run, Scan.assignTo, Step.callees]
    cases Scan.made? s op v <;> simp <;> rfl
  | loop t => cases t <;> simp [Step.callees] <;> rfl
  | enter | leave | bound => simp [Step.callees]; rfl

theorem mem_raise (name : String) : o ∈ (c.raise s name).raised ↔
    o ∈ c.raised ∨ o = canonical s.index name ∧ isCaught s.index s.caught o = false := by
  unfold Scan.raise
  dsimp only
  split
  · next h =>
    constructor
    · exact Or.inl
    · rintro (ho | ⟨rfl, hfree⟩)
      · exact ho
      · rw [h] at hfree
        cases hfree
  · next h =>
    rw [NameSet.mem_insert, or_comm]
    refine or_congr_right ⟨?_, And.left⟩
    rintro rfl
    exact ⟨rfl, by simpa using h⟩

theorem mem_foldl_raise (names : List String) :
    o ∈ (names.foldl (fun c t => c.raise s t) c).raised ↔ o ∈ c.raised ∨
      ∃ name ∈ names, o = canonical s.index name ∧ isCaught s.index s.caught o = false := by
  induction names generalizing c with
  | nil => simp
  | cons name names ih =>
    rw [List.foldl_cons, ih, mem_raise]
    simp [or_assoc]

theorem mem_recordThrow (e : Expr) : o ∈ (c.recordThrow s e).raised ↔
    o ∈ c.raised ∨ ∃ name ∈ (Step.raise e).raises s c.known,
      o = canonical s.index name ∧ isCaught s.index s.caught o = false := by
  cases e with
  | new _ of _ =>
    cases hof : s.classOf of with
    | none => simp [Scan.recordThrow, Step.raises, hof, Scan.tell]
    | some k => simp [Scan.recordThrow, Step.raises, hof, mem_raise]
  | var _ var =>
    have hvars : c.known.catchVars = c.catchVars := rfl
    simp only [Scan.recordThrow, Step.raises, hvars]
    cases hfound : c.catchVars.find? (·.name == var) with
    | none => simp [Scan.tell]
    | some v =>
      obtain ⟨name, types⟩ := v
      cases types with
      | none => simp [Scan.tell]
      | some types => exact mem_foldl_raise types
  | _ => simp [Scan.recordThrow, Step.raises, Scan.tell]

theorem raised_foldl_follow (classes : List String) (method : String) :
    (classes.foldl (fun c k => c.follow s k k method) c).raised = c.raised :=
  List.foldlRecOn (motive := fun c' : Scan => c'.raised = c.raised) _ _ rfl fun _ hc _ _ => hc

theorem raised_callOn (t : Expr) (method : String) : (c.callOn s t method).raised = c.raised := by
  unfold Scan.callOn
  split
  · split
    · rfl
    · split
      · exact raised_foldl_follow _ method
      · rfl
  · split <;> rfl
  · rfl

theorem raised_callStatic (of : ClassRef) (method : String) :
    (c.callStatic s of method).raised = c.raised := by
  unfold Scan.callStatic
  split
  · rfl
  · rfl
  · rfl
  · split <;> rfl
  · rfl
  · rfl

theorem run_raised (step : Step) : o ∈ (step.run s c).raised ↔ o ∈ c.raised ∨
    ∃ name ∈ step.raises s c.known,
      o = canonical s.index name ∧ isCaught s.index s.caught o = false := by
  have hkept {c' : Scan} (hraised : c'.raised = c.raised) (hnone : step.raises s c.known = []) :
      o ∈ c'.raised ↔ o ∈ c.raised ∨ ∃ name ∈ step.raises s c.known,
        o = canonical s.index name ∧ isCaught s.index s.caught o = false := by
    simp [hraised, hnone]
  cases step with
  | raise e => exact mem_recordThrow e
  | call t m f =>
    refine hkept ?_ rfl
    simp only [Step.run, Scan.recordCall]
    split
    · rfl
    · split
      · rfl
      · exact raised_callOn t _
  | callStatic of m f =>
    refine hkept ?_ rfl
    simp only [Step.run, Scan.recordStaticCall]
    split
    · rfl
    · split
      · rfl
      · exact raised_callStatic of _
  | assign var op v =>
    refine hkept ?_ rfl
    simp only [Step.run, Scan.assignTo]
    split <;> rfl
  | loop t =>
    refine hkept ?_ rfl
    cases t <;> rfl
  | enter | leave | bound => exact hkept rfl rfl

/-- Two settings that differ at most in what is caught. -/
structure Setting.Alike (s s' : Setting) : Prop where
  index : s.index = s'.index
  this : s.thisClass = s'.thisClass
  self : s.selfClass = s'.selfClass
  parent : s.parent = s'.parent

namespace Setting.Alike

theorem within (s : Setting) (types : List String) : Alike (s.within types) s := by
  unfold Setting.within
  split <;> exact ⟨rfl, rfl, rfl, rfl⟩

variable (h : Alike s s')
include h

theorem classOf (of : ClassRef) : s.classOf of = s'.classOf of := by
  cases of with
  | selfRef => exact congrArg some h.self
  | staticRef => exact congrArg some h.this
  | parentRef => exact h.parent
  | named | dynamic | anonymous => rfl

theorem raises (step : Step) (k : Known) : step.raises s k = step.raises s' k := by
  cases step with
  | raise e =>
    cases e with
    | new _ of _ => exact congrArg Option.toList (h.classOf of)
    | _ => rfl
  | _ => rfl

theorem receivers (t : Expr) (k : Known) : receivers s k t = Throws.receivers s' k t := by
  cases t with
  | var => simp only [Throws.receivers, h.this]
  | new _ of _ => exact congrArg Option.toList (h.classOf of)
  | _ => rfl

theorem callees (step : Step) (k : Known) : step.callees s k = step.callees s' k := by
  unfold Step.callees
  split
  · rw [h.receivers]
  · next of method =>
    have hbound (k : String) : boundBy s of k = boundBy s' of k := by
      cases of with
      | named => rfl
      | _ => exact h.this
    simp only [h.classOf, hbound]
  · rfl

theorem learn (step : Step) (k : Known) : step.learn s k = step.learn s' k := by
  cases step with
  | raise e => rw [learn_raise, learn_raise]
  | call t m f => rw [learn_call, learn_call]
  | callStatic of m f => rw [learn_callStatic, learn_callStatic]
  | assign var op v =>
    have hmade : Scan.made? s op v = Scan.made? s' op v := by
      unfold Scan.made?
      split
      · exact h.classOf _
      · rfl
    simp only [Step.learn, Step.run, Scan.assignTo, hmade]
  | loop | enter | leave | bound => rfl

end Setting.Alike

end ContractAudit.Throws
