import ContractAudit.Proofs.Coverage

/-! Where the entries of a summary come from. Main statement: each exception is that of a throw on
the walk, which makes the object or throws the variable of a clause around it; and each call is one
on the walk whose class the text tells, by itself, by a parameter's type or by an assignment. -/
namespace ContractAudit.Throws
variable {s s' : Setting} {o : String}

/-- What is known when a body is entered. -/
def Known.start (i : Index) (params : List ParamInfo) : Known := ⟨paramLocals i params, []⟩

/-- The classes that the steps raise, each where it is raised. -/
def raisesIn (s : Setting) (xs : List (Amid Step)) (k : Known) : List (Amid String) :=
  (trace s xs k).flatMap fun y => y.1.spread (Step.raises s y.2)

/-- The calls of the steps, each where it is made. -/
def callsIn (s : Setting) (xs : List (Amid Step)) (k : Known) : List (Amid Callee) :=
  (trace s xs k).flatMap fun y => y.1.spread (Step.callees s y.2)

def raiseSites (s : Setting) (params : List ParamInfo) (b : Block) : List (Amid String) :=
  raisesIn s (deeds b) (.start s.index params)

def callSites (s : Setting) (params : List ParamInfo) (b : Block) : List (Amid Callee) :=
  callsIn s (deeds b) (.start s.index params)

/- What is caught around a step makes no difference to what is known after it. -/
theorem known_run_within (x : Amid Step) (c : Scan) :
    (x.what.run (s.within (guardsOf x.around)) c).known = x.what.learn s c.known := by
  rw [run_known]
  exact (Setting.Alike.within s _).learn x.what c.known

theorem perform_calls (xs : List (Amid Step)) (c : Scan) :
    (perform s xs c).calls.reverse = c.calls.reverse ++
      (callsIn s xs c.known).map fun x => x.what.site (s.within (guardsOf x.around)).caught := by
  induction xs generalizing c with
  | nil => simp [callsIn, trace]
  | cons x xs ih =>
    have hcons : callsIn s (x :: xs) c.known = x.spread (Step.callees s c.known) ++
        callsIn s xs (x.what.learn s c.known) := List.flatMap_cons ..
    rw [perform_cons, ih, known_run_within, run_calls, (Setting.Alike.within s _).callees, hcons, List.map_append,
      List.append_assoc]
    simp [Amid.spread]

theorem perform_raised (xs : List (Amid Step)) (c : Scan) :
    o ∈ (perform s xs c).raised ↔ o ∈ c.raised ∨
      ∃ x ∈ raisesIn s xs c.known, o = canonical s.index x.what ∧
        isCaught s.index (s.within (guardsOf x.around)).caught o = false := by
  induction xs generalizing c with
  | nil => simp [raisesIn, trace]
  | cons x xs ih =>
    have hcons : raisesIn s (x :: xs) c.known = x.spread (Step.raises s c.known) ++
        raisesIn s xs (x.what.learn s c.known) := List.flatMap_cons ..
    rw [perform_cons, ih, known_run_within, run_raised, (Setting.Alike.within s _).raises, hcons]
    simp [Amid.spread, or_and_right, exists_or, or_assoc]

theorem summarize_callSites (params : List ParamInfo) (b : Block) :
    (summarize s params b).1.calls = (callSites s params b).map fun x =>
      x.what.site (s.within (guardsOf x.around)).caught := by
  rw [summarize_eq]
  exact perform_calls (deeds b) (.start (paramLocals s.index params))

theorem summarize_raiseSites (params : List ParamInfo) (b : Block) :
    o ∈ (summarize s params b).1.raised ↔ ∃ x ∈ raiseSites s params b,
      o = canonical s.index x.what ∧
        isCaught s.index (s.within (guardsOf x.around)).caught o = false := by
  rw [summarize_eq]
  refine (perform_raised (deeds b) (.start (paramLocals s.index params))).trans ?_
  exact or_iff_right (NameSet.not_mem_empty o)

/-- The variable that is thrown. -/
def thrownVar? : Visit → Option String
  | .stmt (.throwing _ (.var _ var)) | .expr (.throwing _ (.var _ var)) => some var
  | _ => none

theorem Binds.find? {vars : List CatchVar} {ks : List Catch} (h : Binds vars ks) {var : String}
    {v : CatchVar} {types : List String} (hv : vars.find? (·.name == var) = some v)
    (htypes : v.types = some types) :
    ∃ k, ks.find? (·.var == some var) = some k ∧ types = k.types.map (·.full) := by
  induction h with
  | nil => cases hv
  | @cons w k vars ks hw _ ih =>
    obtain ⟨hname, htold⟩ := hw
    by_cases heq : w.name = var
    · rw [List.find?_cons_of_pos (by simpa using heq)] at hv
      cases hv
      refine ⟨k, List.find?_cons_of_pos (by simp [hname, heq]), ?_⟩
      exact htold types (Option.mem_def.mpr htypes)
    · rw [List.find?_cons_of_neg (by simpa using heq)] at hv
      obtain ⟨k', hk', htypes'⟩ := ih hv
      exact ⟨k', by rw [List.find?_cons_of_neg (by simpa [hname] using heq), hk'], htypes'⟩

theorem node_of_spot {b : Block} {x : Amid Visit} (hx : x ∈ spots b) : x.what ∈ b.inner := by
  rw [← map_what_spots]
  exact List.mem_map_of_mem hx

theorem deed_of_trace {b : Block} {k : Known} {y : Amid Step × Known}
    (hy : y ∈ trace s (deeds b) k) : y.1 ∈ deeds b := by
  rw [← map_fst_trace s (deeds b) k]
  exact List.mem_map_of_mem hy

/- An operand of a throw is that of the node that takes the step. -/
theorem Origin.raise {v : Visit} {e : Expr} (h : Origin v (.raise e)) :
    ∃ span, v = .stmt (.throwing span e) ∨ v = .expr (.throwing span e) := by
  rcases h with h | ⟨_, _, _, _, _, _, h⟩
  · unfold stepOf? at h
    split at h <;> cases h
    · exact ⟨_, Or.inl rfl⟩
    · exact ⟨_, Or.inr rfl⟩
  · cases h

theorem Origin.assign {v : Visit} {var : String} {op : AssignOp} {value : Expr}
    (h : Origin v (.assign var op value)) :
    ∃ span span', v = .expr (.assign span op (.var span' var) value) := by
  rcases h with h | ⟨span, span', _, _, _, rfl, h⟩
  · unfold stepOf? at h
    split at h <;> cases h
  · cases h
    exact ⟨span, span', rfl⟩

theorem Origin.call {v : Visit} {t : Expr} {m : Member} {f : Bool} (h : Origin v (.call t m f)) :
    ∃ span args nullsafe, v = .expr (.methodCall span t m args f nullsafe) := by
  rcases h with h | ⟨_, _, _, _, _, _, h⟩
  · unfold stepOf? at h
    split at h <;> cases h
    exact ⟨_, _, _, rfl⟩
  · cases h

theorem Origin.callStatic {v : Visit} {of : ClassRef} {m : Member} {f : Bool}
    (h : Origin v (.callStatic of m f)) :
    ∃ span args, v = .expr (.staticCall span of m args f) := by
  rcases h with h | ⟨_, _, _, _, _, _, h⟩
  · unfold stepOf? at h
    split at h <;> cases h
    exact ⟨_, _, rfl⟩
  · cases h

theorem raise_origin {params : List ParamInfo} {b : Block} {x : Amid String}
    (hx : x ∈ raiseSites s params b) : ∃ v, ⟨x.around, v⟩ ∈ spots b ∧
      (thrownClass? s v = some x.what ∨ ∃ var k, thrownVar? v = some var ∧
        (bindersOf x.around).find? (·.var == some var) = some k ∧
        x.what ∈ k.types.map (·.full)) := by
  obtain ⟨⟨⟨as, step⟩, known⟩, hy, hx⟩ := List.mem_flatMap.mp hx
  obtain ⟨name, hname, rfl⟩ := List.mem_map.mp hx
  have hbinds : Binds known.catchVars (bindersOf as) := binds_deeds s b rfl hy
  cases step with
  | raise e =>
    obtain ⟨v, hv, horigin⟩ := spot_of_deed (deed_of_trace hy) rfl rfl
    obtain ⟨span, hthrow⟩ := horigin.raise
    refine ⟨v, hv, ?_⟩
    cases e with
    | new _ of _ =>
      have hclass : thrownClass? s v = s.classOf of := by rcases hthrow with rfl | rfl <;> rfl
      exact Or.inl (hclass.trans (Option.mem_toList.mp hname))
    | var _ var =>
      have hthrown : thrownVar? v = some var := by rcases hthrow with rfl | rfl <;> rfl
      rw [Step.raises] at hname
      cases hfound : known.catchVars.find? (·.name == var) with
      | none => simp [hfound] at hname
      | some w =>
        cases htypes : w.types with
        | none => simp [hfound, htypes] at hname
        | some types =>
          obtain ⟨k, hk, rfl⟩ := hbinds.find? hfound htypes
          simp only [hfound, Option.bind_some, htypes, Option.getD_some] at hname
          exact Or.inr ⟨var, k, hthrown, hk, hname⟩
    | _ => cases hname
  | _ => cases hname

/-- The variable other than `$this` that a method is called on by name, and the method. -/
def calledOn? : Visit → Option (String × String)
  | .expr (.methodCall _ (.var _ var) (.ident method) _ false _) =>
    if var = "this" then none else some (var, method)
  | _ => none

/-- The variable that an object made on the spot is assigned to, and what the object is made of. -/
def assignedNew? : Visit → Option (String × ClassRef)
  | .expr (.assign _ .assign (.var _ var) (.new _ of _)) => some (var, of)
  | _ => none

/-- A step assigns an object made on the spot to the variable, and the text tells its class. -/
def Step.Makes (s : Setting) (var : String) (classes : List String) (step : Step) : Prop :=
  ∃ span of args k, step = .assign var .assign (.new span of args) ∧ s.classOf of = some k ∧
    classes = [k]

theorem mem_locals_learn {step : Step} {k : Known} {var : String} {classes : List String}
    (h : (var, classes) ∈ (step.learn s k).locals) :
    (var, classes) ∈ k.locals ∨ step.Makes s var classes := by
  cases step with
  | raise e => exact Or.inl (learn_raise (s := s) k e ▸ h)
  | call t m f => exact Or.inl (learn_call (s := s) k t m f ▸ h)
  | callStatic of m f => exact Or.inl (learn_callStatic (s := s) k of m f ▸ h)
  | assign v op value =>
    simp only [Step.learn, Step.run, Scan.assignTo] at h
    cases hmade : Scan.made? s op value with
    | none =>
      rw [hmade] at h
      exact Or.inl (List.mem_filter.mp h).1
    | some cl =>
      rw [hmade] at h
      rcases List.mem_cons.mp h with heq | h
      · cases heq
        unfold Scan.made? at hmade
        split at hmade
        · exact Or.inr ⟨_, _, _, cl, rfl, hmade, rfl⟩
        · cases hmade
      · exact Or.inl (List.mem_filter.mp (List.mem_filter.mp h).1).1
  | loop t =>
    cases t with
    | var _ v => exact Or.inl (List.mem_filter.mp h).1
    | _ => exact Or.inl h
  | enter v types => exact Or.inl (List.mem_filter.mp h).1
  | leave | bound => exact Or.inl h

theorem mem_locals_trace {xs : List (Amid Step)} {k : Known} {y : Amid Step × Known}
    (hy : y ∈ trace s xs k) {var : String} {classes : List String}
    (h : (var, classes) ∈ y.2.locals) :
    (var, classes) ∈ k.locals ∨ ∃ x ∈ xs, x.what.Makes s var classes := by
  induction xs generalizing k with
  | nil => cases hy
  | cons x xs ih =>
    rcases List.mem_cons.mp hy with rfl | hy
    · exact Or.inl h
    · rcases ih hy with h | ⟨x', hx', hmakes⟩
      · exact (mem_locals_learn h).imp_right fun hmakes => ⟨x, List.mem_cons_self, hmakes⟩
      · exact Or.inr ⟨x', List.mem_cons_of_mem _ hx', hmakes⟩

theorem mem_paramLocals {i : Index} {params : List ParamInfo} {var : String}
    {classes : List String} (h : (var, classes) ∈ paramLocals i params) :
    ∃ p ∈ params, p.name = var ∧ ∃ t, p.type = some t ∧
      classes = t.classNames.filter i.contains := by
  revert h
  refine List.foldlRecOn (motive := fun locals => (var, classes) ∈ locals → ∃ p ∈ params,
    p.name = var ∧ ∃ t, p.type = some t ∧ classes = t.classNames.filter i.contains) _ _ ?_ ?_
  · intro h
    cases h
  · intro locals ih p hp h
    cases ht : p.type with
    | none =>
      rw [ht] at h
      exact ih h
    | some t =>
      rw [ht] at h
      dsimp only at h
      split at h
      · exact ih h
      · rcases List.mem_cons.mp h with heq | h
        · cases heq
          exact ⟨p, hp, rfl, t, ht, rfl⟩
        · exact ih (List.mem_filter.mp h).1

/-- What makes a class of a variable known: the type of a parameter, or an assignment on the walk of
an object made on the spot. -/
def ClassTold (s : Setting) (params : List ParamInfo) (vs : List Visit) (var k : String) : Prop :=
  (∃ p ∈ params, p.name = var ∧ ∃ t, p.type = some t ∧ k ∈ t.classNames) ∨
    ∃ v ∈ vs, ∃ of, assignedNew? v = some (var, of) ∧ s.classOf of = some k

theorem classTold_of_lookup {params : List ParamInfo} {b : Block} {y : Amid Step × Known}
    (hy : y ∈ trace s (deeds b) (.start s.index params)) {var k : String} {classes : List String}
    (hlocal : y.2.locals.lookup var = some classes) (hk : k ∈ classes) :
    ClassTold s params b.inner var k := by
  obtain ⟨before, after, hsplit, _⟩ := List.lookup_eq_some_iff.mp hlocal
  have hmem : (var, classes) ∈ y.2.locals := by simp [hsplit]
  rcases mem_locals_trace hy hmem with hparam | ⟨x, hx, span, of, args, cl, hstep, hof, rfl⟩
  · obtain ⟨p, hp, hname, t, ht, rfl⟩ := mem_paramLocals hparam
    exact Or.inl ⟨p, hp, hname, t, ht, (List.mem_filter.mp hk).1⟩
  · obtain ⟨v, hv, horigin⟩ := spot_of_deed hx (by rw [hstep]; rfl) (by rw [hstep]; rfl)
    rw [hstep] at horigin
    obtain ⟨_, _, rfl⟩ := horigin.assign
    refine Or.inr ⟨_, node_of_spot hv, of, rfl, ?_⟩
    rw [hof, List.mem_singleton.mp hk]

/- The classes of the object that a method is called on. -/
theorem receiver_origin {params : List ParamInfo} {b : Block} {y : Amid Step × Known}
    (hy : y ∈ trace s (deeds b) (.start s.index params)) {t : Expr} {k : String}
    (hk : k ∈ receivers s y.2 t) : receiver? s t = some k ∨
      ∃ span var, t = .var span var ∧ var ≠ "this" ∧ ClassTold s params b.inner var k := by
  cases t with
  | var span var =>
    by_cases hthis : var = "this"
    · rw [receivers, if_pos hthis] at hk
      rw [List.mem_singleton.mp hk]
      exact Or.inl (if_pos hthis)
    · rw [receivers, if_neg hthis] at hk
      cases hlocal : y.2.locals.lookup var with
      | none => simp [hlocal] at hk
      | some classes =>
        rw [hlocal] at hk
        exact Or.inr ⟨span, var, rfl, hthis, classTold_of_lookup hy hlocal hk⟩
  | new _ of _ => exact Or.inl (Option.mem_toList.mp hk)
  | _ => cases hk

theorem call_origin {params : List ParamInfo} {b : Block} {x : Amid Callee}
    (hx : x ∈ callSites s params b) : ∃ v, ⟨x.around, v⟩ ∈ spots b ∧
      (called? s v = some (x.what.lookupClass, x.what.method) ∨
        ∃ var, calledOn? v = some (var, x.what.method) ∧
          ClassTold s params b.inner var x.what.lookupClass) := by
  obtain ⟨⟨⟨as, step⟩, known⟩, hy, hspread⟩ := List.mem_flatMap.mp hx
  obtain ⟨callee, hcallee, rfl⟩ := List.mem_map.mp hspread
  cases step with
  | call t m f =>
    cases m with
    | dynamic => cases hcallee
    | ident method =>
      cases f with
      | true => cases hcallee
      | false =>
        obtain ⟨v, hv, horigin⟩ := spot_of_deed (deed_of_trace hy) rfl rfl
        obtain ⟨_, _, _, rfl⟩ := horigin.call
        obtain ⟨k, hk, rfl⟩ := List.mem_map.mp hcallee
        refine ⟨_, hv, ?_⟩
        rcases receiver_origin hy hk with hk | ⟨span, var, rfl, hthis, htold⟩
        · exact Or.inl (by simp [called?, hk, Callee.on])
        · exact Or.inr ⟨var, by simp [calledOn?, hthis, Callee.on], htold⟩
  | callStatic of m f =>
    cases m with
    | dynamic => cases hcallee
    | ident method =>
      cases f with
      | true => cases hcallee
      | false =>
        obtain ⟨v, hv, horigin⟩ := spot_of_deed (deed_of_trace hy) rfl rfl
        obtain ⟨_, _, rfl⟩ := horigin.callStatic
        obtain ⟨k, hk, rfl⟩ := List.mem_map.mp hcallee
        have hof : s.classOf of = some k := Option.mem_toList.mp hk
        exact ⟨_, hv, Or.inl (by simp [called?, hof])⟩
  | _ => cases hcallee

/-- Nothing else is found in a body. The walk comes to each exception of the summary at a throw of
an object made on the spot, or at a throw of the variable of a clause around it, and then it is a
type of the innermost such clause. It comes to each call at a call by name whose class is told: that
of `$this`, of an object made on the spot or of a static reference, or a class of a variable. -/
theorem summary_stems_from_walk (i : Index) (c : Config) (f : Frame) (params : List ParamInfo)
    (b : Block) :
    let s := settingOf i c f
    (spots b).map (·.what) = b.inner ∧
    (∀ o ∈ (summarize s params b).1.raised, ∃ x ∈ spots b,
      (∃ k, thrownClass? s x.what = some k ∧ o = canonical i k) ∨
      ∃ var clause, thrownVar? x.what = some var ∧
        (bindersOf x.around).find? (·.var == some var) = some clause ∧
        .catchClause clause ∈ b.inner ∧ x.what ∈ clause.inner ∧
        ∃ t ∈ clause.types, o = canonical i t.full) ∧
    ∀ site ∈ (summarize s params b).1.calls, ∃ x ∈ spots b,
      called? s x.what = some (site.lookupClass, site.method) ∨
      ∃ var, calledOn? x.what = some (var, site.method) ∧
        ClassTold s params b.inner var site.lookupClass := by
  intro s
  refine ⟨map_what_spots b, ?_, ?_⟩
  · intro o ho
    obtain ⟨⟨as, name⟩, hx, ho, _⟩ := (summarize_raiseSites params b).mp ho
    obtain ⟨v, hv, hclass | ⟨var, clause, hvar, hfind, hname⟩⟩ := raise_origin hx
    · exact ⟨_, hv, Or.inl ⟨name, hclass, ho⟩⟩
    · obtain ⟨t, ht, rfl⟩ := List.mem_map.mp hname
      obtain ⟨hmem, hin⟩ :=
        spots_clauses b hv (mem_of_bindersOf (List.mem_of_find?_eq_some hfind))
      exact ⟨_, hv, Or.inr ⟨var, clause, hvar, hfind, hmem, hin, t, ht, ho⟩⟩
  · intro site hsite
    rw [summarize_callSites] at hsite
    obtain ⟨x, hx, rfl⟩ := List.mem_map.mp hsite
    obtain ⟨v, hv, hcall⟩ := call_origin hx
    exact ⟨_, hv, hcall⟩

end ContractAudit.Throws
