import ContractAudit.Proofs.Ceiling
import ContractAudit.Proofs.Mirror
import ContractAudit.Proofs.Origins

/-! Exceptions that catch clauses handle, left out or not. Main statement: leaving them out keeps
all calls, and of what a body raises it removes what is caught wherever it is raised; so a query
answers no more than it does otherwise. -/
namespace ContractAudit.Throws
variable {i : Index} {c : Config} {s s' : Setting}

theorem Setting.Alike.trace (h : s.Alike s') (xs : List (Amid Step)) (k : Known) :
    trace s xs k = Throws.trace s' xs k := by
  induction xs generalizing k with
  | nil => rfl
  | cons x xs ih => rw [Throws.trace, Throws.trace, h.learn, ih]

theorem Setting.Alike.raiseSites (h : s.Alike s') (params : List ParamInfo) (b : Block) :
    raiseSites s params b = Throws.raiseSites s' params b := by
  simp only [Throws.raiseSites, raisesIn, h.trace, h.index, Amid.spread, h.raises]

theorem Setting.Alike.callSites (h : s.Alike s') (params : List ParamInfo) (b : Block) :
    callSites s params b = Throws.callSites s' params b := by
  simp only [Throws.callSites, callsIn, h.trace, h.index, Amid.spread, h.callees]

/- The flag has no part in the classes that names stand for. -/
theorem settingOf_alike (i : Index) (c : Config) (honor : Bool) (f : Frame) :
    (settingOf i { c with honorCatch := honor } f).Alike (settingOf i c f) := ⟨rfl, rfl, rfl, rfl⟩

section
variable (i : Index) (c : Config) (f : Frame) (params : List ParamInfo) (b : Block)

/-- The summary of a body, with exceptions that are handled left out or not. -/
def summaryWith (honor : Bool) : Summary :=
  (summarize (settingOf i { c with honorCatch := honor } f) params b).1

theorem calls_honoring : (summaryWith i c f params b true).calls =
    (callSites (settingOf i c f) params b).map fun x => x.what.site (guardsOf x.around) := by
  rw [summaryWith, summarize_callSites, (settingOf_alike i c true f).callSites]
  rfl

theorem calls_ignoring : (summaryWith i c f params b false).calls =
    (callSites (settingOf i c f) params b).map fun x => x.what.site [] := by
  rw [summaryWith, summarize_callSites, (settingOf_alike i c false f).callSites]
  rfl

theorem raised_honoring (o : String) : o ∈ (summaryWith i c f params b true).raised ↔
    ∃ x ∈ raiseSites (settingOf i c f) params b, o = canonical i x.what ∧
      isCaught i (guardsOf x.around) o = false := by
  rw [summaryWith, summarize_raiseSites, (settingOf_alike i c true f).raiseSites]
  rfl

theorem raised_ignoring (o : String) : o ∈ (summaryWith i c f params b false).raised ↔
    ∃ x ∈ raiseSites (settingOf i c f) params b, o = canonical i x.what := by
  rw [summaryWith, summarize_raiseSites, (settingOf_alike i c false f).raiseSites]
  refine exists_congr fun x => and_congr_right fun _ => and_iff_left ?_
  rfl

end

/-- A call with nothing caught around it. -/
def CallSite.freed (x : CallSite) : CallSite := { x with caught := [] }

/-- A body raises no more than another and has the same calls; around those of the other nothing is
caught. -/
structure Summary.Milder (a b : Summary) : Prop where
  raised : ∀ o ∈ a.raised, o ∈ b.raised
  calls : b.calls = a.calls.map CallSite.freed

theorem Summary.Milder.freed_mem {a b : Summary} (h : a.Milder b) {x : CallSite}
    (hx : x ∈ a.calls) : x.freed ∈ b.calls := by
  rw [h.calls]
  exact List.mem_map_of_mem hx

theorem summaryWith_milder (i : Index) (c : Config) (f : Frame) (params : List ParamInfo)
    (b : Block) : (summaryWith i c f params b true).Milder (summaryWith i c f params b false) where
  raised o ho := by
    obtain ⟨x, hx, ho, _⟩ := (raised_honoring i c f params b o).mp ho
    exact (raised_ignoring i c f params b o).mpr ⟨x, hx, ho⟩
  calls := by
    rw [calls_honoring, calls_ignoring, List.map_map]
    rfl

section
variable {body body' : CallKey → Summary → Prop} {k start : CallKey} {o : String}
  (h : ∀ k s, body k s → ∃ s', body' k s' ∧ s.Milder s')
include h

theorem Chain.milder {n : Nat} (hc : Chain i body start n k) : Chain i body' start n k := by
  induction hc with
  | here => exact .here
  | call _ hs hsite hf ih =>
    obtain ⟨s', hs', hmilder⟩ := h _ _ hs
    exact .call ih hs' (hmilder.freed_mem hsite) hf

theorem Outcome.milder {inside inside' : Set CallKey} (hin : inside ⊆ inside')
    (ho : Outcome i body inside o k) : Outcome i body' inside' o k := by
  induction ho with
  | raised hk hs ho =>
    obtain ⟨s', hs', hmilder⟩ := h _ _ hs
    exact .raised (hin hk) hs' (hmilder.raised _ ho)
  | call hk hs hsite hf hf' _ _ ih =>
    obtain ⟨s', hs', hmilder⟩ := h _ _ hs
    exact .call (hin hk) hs' (hmilder.freed_mem hsite) hf (hin hf') (List.forall_mem_nil _) ih

end

/-- The resolvers have summaries under the same keys in the same order, those of the first milder,
and know the same results. -/
structure Resolver.Milder (r r' : Resolver) : Prop where
  summaries : List.Forall₂ (fun x y => x.1 = y.1 ∧ x.2.Milder y.2) r.summaries r'.summaries
  memo : r.memo = r'.memo

theorem Resolver.Milder.summary? {r r' : Resolver} (h : r.Milder r') (k : CallKey) :
    (r.summary? k = none ∧ r'.summary? k = none) ∨
      ∃ s s', r.summary? k = some s ∧ r'.summary? k = some s' ∧ s.Milder s' := by
  unfold Resolver.summary?
  obtain ⟨h, _⟩ := h
  generalize r.summaries = l, r'.summaries = l' at h
  induction h with
  | nil => exact Or.inl ⟨rfl, rfl⟩
  | @cons x y _ _ hxy _ ih =>
    obtain ⟨hkey, hmilder⟩ := hxy
    rw [List.lookup_cons, List.lookup_cons, ← hkey]
    cases k == x.1 with
    | true => exact Or.inr ⟨x.2, y.2, rfl, rfl, hmilder⟩
    | false => exact ih

/-- Run from such resolvers and in workspaces that differ at most in their logs, the computations
give related answers and leave such resolvers and workspaces. -/
def Alongside {α β : Type} (Q : α → β → Prop) (m : Resolve α) (m' : Resolve β) : Prop :=
  ∀ r r' w w', r.Milder r' → SameButLog w w' →
    Q ((m.run r).run w).1.1 ((m'.run r').run w').1.1 ∧
    ((m.run r).run w).1.2.Milder ((m'.run r').run w').1.2 ∧
    SameButLog ((m.run r).run w).2 ((m'.run r').run w').2

namespace Alongside
variable {α β γ δ : Type} {Q : α → β → Prop} {S : γ → δ → Prop}

theorem pure {a : α} {b : β} (h : Q a b) : Alongside Q (Pure.pure a) (Pure.pure b) :=
  fun _ _ _ _ hr hw => ⟨h, hr, hw⟩

theorem bind {m : Resolve α} {m' : Resolve β} {f : α → Resolve γ} {f' : β → Resolve δ}
    (h : Alongside Q m m') (hf : ∀ a b, Q a b → Alongside S (f a) (f' b)) :
    Alongside S (m >>= f) (m' >>= f') := by
  intro r r' w w' hr hw
  obtain ⟨hab, hr, hw⟩ := h r r' w w' hr hw
  exact hf _ _ hab _ _ _ _ hr hw

theorem get : Alongside Resolver.Milder (MonadState.get : Resolve Resolver) MonadState.get :=
  fun _ _ _ _ hr hw => ⟨hr, hr, hw⟩

theorem tell (e e' : Event) :
    Alongside (fun _ _ => True) (Work.tell e : Resolve Unit) (Work.tell e' : Resolve Unit) :=
  fun _ _ _ _ hr hw => ⟨trivial, hr, sameButLog_tallies.told _ _ hw⟩

theorem update {f f' : Resolver → Resolver} (h : ∀ r r', r.Milder r' → (f r).Milder (f' r')) :
    Alongside (fun _ _ => True) (modify f : Resolve Unit) (modify f') :=
  fun r r' _ _ hr hw => ⟨trivial, h r r' hr, hw⟩

theorem lift {m : Work α} {m' : Work β} (h : ∀ w w', SameButLog w w' →
      Q (m.run w).1 (m'.run w').1 ∧ SameButLog (m.run w).2 (m'.run w').2) :
    Alongside Q (liftM m : Resolve α) (liftM m' : Resolve β) :=
  fun _ _ w w' hr hw => ⟨(h w w' hw).1, hr, (h w w' hw).2⟩

theorem foldlM {f : α → γ → Resolve α} {f' : β → γ → Resolve β}
    (h : ∀ a b c, Q a b → Alongside Q (f a c) (f' b c)) (cs : List γ) {a : α} {b : β}
    (hab : Q a b) : Alongside Q (cs.foldlM f a) (cs.foldlM f' b) := by
  induction cs generalizing a b with
  | nil => exact pure hab
  | cons c cs ih =>
    rw [List.foldlM_cons, List.foldlM_cons]
    exact (h a b c hab).bind fun _ _ => ih

end Alongside

/-- Graphs on the way that differ at most in their nodes. -/
structure Collected.SameShape (g g' : Collected) : Prop where
  keys : g.keys = g'.keys
  next : g.next = g'.next
  truncated : g.truncated = g'.truncated

theorem body?_alongside (m : MethodInfo) {w w' : Workspace} (h : SameButLog w w') :
    ((body? m).run w').1 = ((body? m).run w).1 ∧
      SameButLog ((body? m).run w).2 ((body? m).run w').2 := by
  have hboth := body?_mirrors sameButLog_tallies m w w' h
  rwa [MethodInfo.respell_id] at hboth

theorem scanMethod_alongside (i : Index) (c : Config) (f : Frame) {w w' : Workspace}
    (h : SameButLog w w') :
    ((scanMethod i { c with honorCatch := true } f).run w).1.Milder
      ((scanMethod i { c with honorCatch := false } f).run w').1 ∧
    SameButLog ((scanMethod i { c with honorCatch := true } f).run w).2
      ((scanMethod i { c with honorCatch := false } f).run w').2 := by
  obtain ⟨hbody, hw⟩ := body?_alongside f.method h
  rw [scanMethod_run, scanMethod_run]
  rcases hrun : (body? f.method).run w with ⟨body, w₁⟩
  rcases hrun' : (body? f.method).run w' with ⟨body', w₁'⟩
  rw [hrun, hrun'] at hbody hw
  obtain rfl : body' = body := hbody
  cases body' with
  | none => exact ⟨⟨fun _ ho => ho, rfl⟩, hw⟩
  | some b => exact ⟨summaryWith_milder i c f f.method.params b, sameButLog_tallies.told _ _ hw⟩

section
variable (i : Index) (c : Config)

theorem summaryOf_alongside (f : Frame) :
    Alongside Summary.Milder (summaryOf i { c with honorCatch := true } f)
      (summaryOf i { c with honorCatch := false } f) := by
  refine Alongside.get.bind fun r r' hr => ?_
  rcases hr.summary? f.key with ⟨hs, hs'⟩ | ⟨s, s', hs, hs', hmilder⟩
  · rw [hs, hs']
    refine (Alongside.lift fun _ _ hw => scanMethod_alongside i c f hw).bind fun s s' hmilder => ?_
    refine (Alongside.update fun _ _ hr => ?_).bind fun _ _ _ => .pure hmilder
    exact ⟨.cons ⟨rfl, hmilder⟩ hr.summaries, hr.memo⟩
  · rw [hs, hs']
    exact .pure hmilder

theorem frame?_alongside (this lookup method : String) :
    Alongside Eq (frame? i this lookup method) (frame? i this lookup method) := by
  unfold frame?
  cases i.method? lookup method with
  | some m => exact .pure rfl
  | none => exact (Alongside.tell _ _).bind fun _ _ _ => .pure rfl

theorem target_alongside (deeper : Bool) {r r' : Resolver} (hr : r.Milder r') {g g' : Collected}
    (hg : g.SameShape g') (f : Frame) :
    (g.target deeper r f).1.SameShape (g'.target deeper r' f).1 := by
  have hknown : r.known? f.key = r'.known? f.key := congrArg (·.lookup f.key) hr.memo
  obtain ⟨keys, next, nodes, truncated⟩ := g
  obtain ⟨rfl, rfl, rfl⟩ := hg
  unfold Collected.target
  rw [hknown]
  cases r'.known? f.key with
  | some s => exact ⟨rfl, rfl, rfl⟩
  | none =>
    cases g'.keys.idxOf? f.key with
    | some position => exact ⟨rfl, rfl, rfl⟩
    | none => cases deeper <;> exact ⟨rfl, rfl, rfl⟩

theorem followSite_alongside (deeper : Bool) {g g' : Collected} (hg : g.SameShape g')
    (site : CallSite) : Alongside (fun x y => x.1.SameShape y.1) (followSite i deeper g site)
      (followSite i deeper g' site.freed) := by
  refine (frame?_alongside i _ _ _).bind ?_
  rintro f _ rfl
  cases f with
  | none => exact .pure hg
  | some f => exact Alongside.get.bind fun r r' hr => .pure (target_alongside deeper hr hg f)

theorem followSites_alongside (deeper : Bool) {g g' : Collected} (hg : g.SameShape g')
    (sites : List CallSite) : Alongside (fun x y => x.1.SameShape y.1)
      (followSites i deeper g sites) (followSites i deeper g' (sites.map CallSite.freed)) := by
  induction sites generalizing g g' with
  | nil => exact .pure hg
  | cons site sites ih =>
    refine (followSite_alongside i deeper hg site).bind fun x y hxy => ?_
    exact (ih hxy).bind fun _ _ hlast => .pure hlast

theorem collectNode_alongside (deeper : Bool) {g g' : Collected} (hg : g.SameShape g')
    (f : Frame) : Alongside Collected.SameShape
      (collectNode i { c with honorCatch := true } deeper g f)
      (collectNode i { c with honorCatch := false } deeper g' f) := by
  refine (summaryOf_alongside i c f).bind fun s s' hs => ?_
  rw [hs.calls]
  refine (followSites_alongside i deeper hg s.calls).bind fun x y hxy => ?_
  exact .pure ⟨hxy.keys, hxy.next, hxy.truncated⟩

theorem collectLevels_alongside (levels : Nat) (level : List Frame) {g g' : Collected}
    (hg : g.SameShape g') : Alongside Collected.SameShape
      (collectLevels i { c with honorCatch := true } levels level g)
      (collectLevels i { c with honorCatch := false } levels level g') := by
  induction levels generalizing level g g' with
  | zero => exact .pure hg
  | succ levels ih =>
    rw [collectLevels, collectLevels]
    split
    · exact .pure hg
    · have hstart : Collected.SameShape { g with next := [] } { g' with next := [] } :=
        ⟨hg.keys, rfl, hg.truncated⟩
      refine (Alongside.foldlM (fun _ _ f hab => collectNode_alongside i c _ hab f) level
        hstart).bind fun a b hab => ?_
      rw [hab.next]
      exact ih b.next hab

theorem fresh_milder (w : Workspace) (root : Frame) (d : Nat) :
    (fresh i { c with honorCatch := true } w root d).2.Milder
      (fresh i { c with honorCatch := false } w root d).2 :=
  (collectLevels_alongside i { c with maxCallDepth := d } d [root] ⟨rfl, rfl, rfl⟩ .new .new w w
    ⟨.nil, rfl⟩ ⟨w.events, rfl⟩).2.1

theorem below_milder (w : Workspace) (root : Frame) (k : CallKey) (s : Summary)
    (h : Below i { c with honorCatch := true } w root k s) :
    ∃ s', Below i { c with honorCatch := false } w root k s' ∧ s.Milder s' := by
  obtain ⟨d, hs⟩ := h
  rcases (fresh_milder i c w root d).summary? k with ⟨hnone, _⟩ | ⟨s₁, s', hs₁, hs', hmilder⟩
  · cases hnone.symm.trans hs
  · cases hs₁.symm.trans hs
    exact ⟨s', ⟨d, hs'⟩, hmilder⟩

theorem within_milder (w : Workspace) (root : Frame) (d : Nat) :
    within i { c with honorCatch := true } w root d ⊆
      within i { c with honorCatch := false } w root d := by
  rintro k ⟨n, hn, hc⟩
  exact ⟨n, hn, hc.milder (below_milder i c w root)⟩

end

/- Only a method that there is, asked for with some depth, raises anything. -/
theorem method_of_mem_freshAnswer {w : Workspace} {owner method o : String} {d : Nat}
    (ho : o ∈ freshAnswer i c w owner method d) :
    1 ≤ d ∧ ∃ m, i.method? owner method = some m := by
  cases hm : i.method? owner method with
  | none =>
    have hrun := Yields.of_run (methodThrows i { c with maxCallDepth := d } owner method) .new w
    rw [freshAnswer, (methodThrows_none hrun hm).1] at ho
    exact absurd ho (NameSet.not_mem_empty o)
  | some m =>
    cases d with
    | zero =>
      have hempty : freshAnswer i c w owner method 0 = ∅ := by
        rw [freshAnswer, methodThrows, frame?, hm]
        rfl
      rw [hempty] at ho
      exact absurd ho (NameSet.not_mem_empty o)
    | succ d => exact ⟨Nat.succ_pos d, m, rfl⟩

theorem freshAnswer_milder (i : Index) (c : Config) (w : Workspace) (owner method : String)
    (d : Nat) {o : String} (ho : o ∈ freshAnswer i { c with honorCatch := true } w owner method d) :
    o ∈ freshAnswer i { c with honorCatch := false } w owner method d := by
  obtain ⟨hd, m, hm⟩ := method_of_mem_freshAnswer ho
  rw [mem_freshAnswer hd hm] at ho ⊢
  exact Outcome.milder (below_milder i c w _) (within_milder i c w _ d) ho

/-- The node stands on the walk through the body, and within the parts of try statements that are
said to be around it: what these catch is caught after the nodes before it. -/
def StandsAt (b : Block) (as : List Around) (v : Visit) : Prop :=
  ∃ n, b.inner[n]? = some v ∧ guardsOf as = caughtAfter (b.inner.take n)

/-- Leaving out the exceptions that catch clauses handle removes only those. The calls of a body
stay the same in the same order, and each now has the types that are caught where it stands. An
exception stays if some throw raises it where no type that is caught is a supertype of it. So with
any ceiling a fresh resolver answers a part of what it answers otherwise. -/
theorem honoring_removes_handled (i : Index) (c : Config) :
    (∀ f params b,
      let s := settingOf i c f
      let calls := callSites s params b
      let raises := raiseSites s params b
      (summaryWith i c f params b true).calls =
        calls.map (fun x => x.what.site (guardsOf x.around)) ∧
      (summaryWith i c f params b false).calls = calls.map (fun x => x.what.site []) ∧
      (∀ x ∈ calls, ∃ v, StandsAt b x.around v ∧
        (called? s v = some (x.what.lookupClass, x.what.method) ∨
          ∃ var, calledOn? v = some (var, x.what.method) ∧
            ClassTold s params b.inner var x.what.lookupClass)) ∧
      (∀ o, o ∈ (summaryWith i c f params b true).raised ↔ ∃ x ∈ raises, o = canonical i x.what ∧
        ∀ t ∈ guardsOf x.around, i.isSubtype o t = false) ∧
      (∀ o, o ∈ (summaryWith i c f params b false).raised ↔
        ∃ x ∈ raises, o = canonical i x.what) ∧
      ∀ x ∈ raises, ∃ v, StandsAt b x.around v ∧
        (thrownClass? s v = some x.what ∨ ∃ var k, thrownVar? v = some var ∧
          (bindersOf x.around).find? (·.var == some var) = some k ∧
          x.what ∈ k.types.map (·.full))) ∧
    ∀ w owner method d,
      ∀ o ∈ freshAnswer i { c with honorCatch := true } w owner method d,
        o ∈ freshAnswer i { c with honorCatch := false } w owner method d := by
  refine ⟨fun f params b => ⟨calls_honoring i c f params b, calls_ignoring i c f params b, ?_, ?_,
    raised_ignoring i c f params b, ?_⟩, fun w owner method d o => freshAnswer_milder i c w _ _ d⟩
  · intro x hx
    obtain ⟨v, hv, hcall⟩ := call_origin hx
    exact ⟨v, spots_bodies b hv, hcall⟩
  · intro o
    rw [raised_honoring]
    simp only [Graph.isCaught_eq_false]
  · intro x hx
    obtain ⟨v, hv, hraise⟩ := raise_origin hx
    exact ⟨v, spots_bodies b hv, hraise⟩

end ContractAudit.Throws
