import ContractAudit.Proofs.Declarations
import ContractAudit.Proofs.Stretches
import Mathlib.Data.List.DropRight

/-! One body gone through in two settings. Main statement: if every class that its steps refer to
means the same in both, then so do the exceptions and the calls of the two summaries. What counts as
the same is a parameter: a function on the names of classes that tells letter case apart or not. -/
namespace ContractAudit

/- Leading backslashes make no difference to a look-up. -/
theorem Index.get?_dropLeading (i : Index) (name : String) :
    i.get? (Text.dropLeading '\\' name) = i.get? name := by
  have hidem : Text.dropLeading '\\' (Text.dropLeading '\\' name) = Text.dropLeading '\\' name := by
    simp [Text.dropLeading, List.dropWhile_idempotent]
  rw [Index.get?, classKey, hidem]
  rfl

namespace Throws
variable {i : Index} {a b : String}

theorem lower_canonical_congr (h : Text.lower a = Text.lower b) :
    Text.lower (canonical i a) = Text.lower (canonical i b) := by
  have hdrop : Text.lower (Text.dropLeading '\\' a) = Text.lower (Text.dropLeading '\\' b) := by
    rw [lower_dropLeading, lower_dropLeading, h]
  rw [canonical, canonical, Index.declaredName, Index.declaredName, i.get?_congr hdrop]
  cases i.get? (Text.dropLeading '\\' b) with
  | some c => rfl
  | none => exact hdrop

theorem canonical_eq_of_contains (h : Text.lower a = Text.lower b) (ha : i.contains a = true) :
    canonical i a = canonical i b := by
  obtain ⟨c, hc⟩ := Option.isSome_iff_exists.mp ha
  rw [canonical, canonical, Index.declaredName, Index.declaredName, i.get?_dropLeading,
    i.get?_dropLeading, ← i.get?_congr h, hc]
  rfl

section
variable {β : Type} (i : Index) (δ : String → β)

/-- What is told of the name of a class: the name in small letters, and `δ` of the class. -/
def look (name : String) : String × β := (Text.lower name, δ (canonical i name))

def lookSite (site : CallSite) : (String × β) × (String × β) × String × List String :=
  (look i δ site.thisClass, look i δ site.lookupClass, site.method, site.caught)

/-- Two scans tell the same. -/
structure Like (c c' : Scan) : Prop where
  locals : c.locals.map (fun l => (l.1, l.2.map (look i δ))) =
    c'.locals.map fun l => (l.1, l.2.map (look i δ))
  catchVars : c.catchVars = c'.catchVars
  raised : ∀ d, (∃ o ∈ c.raised, δ o = d) ↔ ∃ o ∈ c'.raised, δ o = d
  calls : c.calls.map (lookSite i δ) = c'.calls.map (lookSite i δ)

/-- Two settings that differ at most in what `self` and `parent` mean. -/
structure Near (s s' : Setting) : Prop where
  index : s.index = i
  index' : s'.index = i
  honorCatch : s.honorCatch = s'.honorCatch
  caught : s.caught = s'.caught
  this : look i δ s.thisClass = look i δ s'.thisClass

end

section
variable {β : Type} {i : Index} {δ : String → β} {s s' : Setting} {c c' : Scan} {k k' : String}

theorem map_eq_map_cases {γ ε : Type} {f : γ → ε} {x y : Option γ} (h : x.map f = y.map f) :
    (x = none ∧ y = none) ∨ ∃ a b, x = some a ∧ y = some b ∧ f a = f b := by
  cases x with
  | none => exact Or.inl ⟨rfl, Option.map_eq_none_iff.mp h.symm⟩
  | some a =>
    obtain ⟨b, hb, heq⟩ := Option.map_eq_some_iff.mp h.symm
    exact Or.inr ⟨a, b, rfl, hb, heq.symm⟩

theorem lookup_map_snd {γ ε : Type} (f : γ → ε) (var : String) (ls : List (String × γ)) :
    (ls.map fun l => (l.1, f l.2)).lookup var = (ls.lookup var).map f := by
  induction ls with
  | nil => rfl
  | cons l ls ih =>
    rw [List.map_cons, List.lookup_cons, List.lookup_cons, ih]
    cases var == l.1 <;> rfl

namespace Like

theorem refl (c : Scan) : Like i δ c c := ⟨rfl, rfl, fun _ => Iff.rfl, rfl⟩

theorem tell (h : Like i δ c c') (e e' : Event) : Like i δ (c.tell e) (c'.tell e') :=
  ⟨h.locals, h.catchVars, h.raised, h.calls⟩

theorem dropLocal (h : Like i δ c c') (var : String) :
    Like i δ (c.dropLocal var) (c'.dropLocal var) := by
  refine ⟨?_, h.catchVars, h.raised, h.calls⟩
  have hfilter (ls : List (String × List String)) :
      (ls.filter (·.1 != var)).map (fun l => (l.1, l.2.map (look i δ))) =
        (ls.map fun l => (l.1, l.2.map (look i δ))).filter (·.1 != var) := by
    rw [List.filter_map]
    rfl
  rw [Scan.dropLocal, Scan.dropLocal, hfilter, hfilter, h.locals]

theorem forget (h : Like i δ c c') (var : String) : Like i δ (c.forget var) (c'.forget var) :=
  ⟨(h.dropLocal var).locals, congrArg (List.map _) h.catchVars, h.raised, h.calls⟩

theorem setLocal (h : Like i δ c c') (var : String) (hk : look i δ k = look i δ k') :
    Like i δ (c.setLocal var [k]) (c'.setLocal var [k']) := by
  refine ⟨?_, h.catchVars, h.raised, h.calls⟩
  have hrest := (h.dropLocal var).locals
  simp only [Scan.setLocal, List.map_cons, List.map_nil, hk]
  exact congrArg (List.cons _) hrest

theorem raise (h : Like i δ c c') (hs : Near i δ s s')
    (hδ : ∀ {o o'}, δ o = δ o' → Text.lower o = Text.lower o')
    (hk : look i δ k = look i δ k') : Like i δ (c.raise s k) (c'.raise s' k') := by
  have hclass : δ (canonical i k) = δ (canonical i k') := congrArg Prod.snd hk
  have hcaught : isCaught i s'.caught (canonical i k) = isCaught i s'.caught (canonical i k') := by
    simp only [isCaught, i.isSubtype_congr (hδ hclass)]
  simp only [Scan.raise, hs.index, hs.index', hs.caught, hcaught]
  split
  · exact h.tell _ _
  · refine ⟨h.locals, h.catchVars, ?_, h.calls⟩
    intro d
    simp only [NameSet.mem_insert, or_and_right, exists_or, exists_eq_left, hclass, h.raised d]

theorem raiseAll (h : Like i δ c c') (hs : Near i δ s s')
    (hδ : ∀ {o o'}, δ o = δ o' → Text.lower o = Text.lower o') (types : List String) :
    Like i δ (types.foldl (fun c t => c.raise s t) c) (types.foldl (fun c t => c.raise s' t) c') := by
  induction types generalizing c c' with
  | nil => exact h
  | cons t types ih => exact ih (h.raise hs hδ rfl)

theorem follow (h : Like i δ c c') (hs : Near i δ s s') {t t' : String}
    (ht : look i δ t = look i δ t') (hk : look i δ k = look i δ k') (method : String) :
    Like i δ (c.follow s t k method) (c'.follow s' t' k' method) := by
  refine ⟨h.locals, h.catchVars, h.raised, ?_⟩
  simp only [Scan.follow, List.map_cons, lookSite, ht, hk, hs.caught]
  exact congrArg (List.cons _) h.calls

/- Two lists of classes that look alike are gone through side by side. -/
theorem followAll (h : Like i δ c c') (hs : Near i δ s s') {ks ks' : List String}
    (hks : ks.map (look i δ) = ks'.map (look i δ)) (method : String) :
    Like i δ (ks.foldl (fun c k => c.follow s k k method) c)
      (ks'.foldl (fun c k => c.follow s' k k method) c') := by
  induction ks generalizing ks' c c' with
  | nil =>
    cases ks' with
    | nil => exact h
    | cons => cases hks
  | cons k ks ih =>
    cases ks' with
    | nil => cases hks
    | cons k' ks' =>
      obtain ⟨hk, hks⟩ := List.cons.inj hks
      exact ih (h.follow hs hk hk method) hks

theorem classes? (h : Like i δ c c') (var : String) :
    (c.classes? var).map (List.map (look i δ)) = (c'.classes? var).map (List.map (look i δ)) := by
  rw [Scan.classes?, Scan.classes?, ← lookup_map_snd, ← lookup_map_snd, h.locals]

end Like

/-- The class that a step refers to, if it does. -/
def Step.ref? : Step → Option ClassRef
  | raise (.new _ of _) | call (.new _ of _) _ _ | callStatic of _ _ | assign _ _ (.new _ of _) =>
    some of
  | _ => none

/-- A reference means the same class in two settings. -/
def Agree (i : Index) (δ : String → β) (s s' : Setting) (r : ClassRef) : Prop :=
  (s.classOf r).map (look i δ) = (s'.classOf r).map (look i δ)

theorem classOf_within (s : Setting) (types : List String) (r : ClassRef) :
    (s.within types).classOf r = s.classOf r := by
  unfold Setting.within
  split
  · cases r <;> rfl
  · rfl

theorem Agree.within {r : ClassRef} (h : Agree i δ s s' r) (types : List String) :
    Agree i δ (s.within types) (s'.within types) r := by
  rw [Agree, classOf_within, classOf_within]
  exact h

theorem Near.within (h : Near i δ s s') (types : List String) :
    Near i δ (s.within types) (s'.within types) := by
  unfold Setting.within
  rw [h.honorCatch]
  split
  · exact ⟨h.index, h.index', rfl, congrArg (· ++ types) h.caught, h.this⟩
  · exact h

section
variable (hδ : ∀ {o o'}, δ o = δ o' → Text.lower o = Text.lower o')
include hδ

theorem recordThrow_like (h : Like i δ c c') (hs : Near i δ s s') {e : Expr}
    (hr : ∀ r, (Step.raise e).ref? = some r → Agree i δ s s' r) :
    Like i δ (c.recordThrow s e) (c'.recordThrow s' e) := by
  unfold Scan.recordThrow
  split
  · next of _ =>
    rcases map_eq_map_cases (hr of rfl) with ⟨hk, hk'⟩ | ⟨k, k', hk, hk', heq⟩
    · rw [hk, hk']
      exact h.tell _ _
    · rw [hk, hk']
      exact h.raise hs hδ heq
  · rw [h.catchVars]
    split
    · exact h.raiseAll hs hδ _
    · exact h.tell _ _
    · exact h.tell _ _
  · exact h.tell _ _

omit hδ in
theorem callOn_like (h : Like i δ c c') (hs : Near i δ s s') {t : Expr} {m : Member} {f : Bool}
    (hr : ∀ r, (Step.call t m f).ref? = some r → Agree i δ s s' r) (method : String) :
    Like i δ (c.callOn s t method) (c'.callOn s' t method) := by
  unfold Scan.callOn
  split
  · next var =>
    split
    · exact h.follow hs hs.this hs.this method
    · rcases map_eq_map_cases (h.classes? var) with ⟨hk, hk'⟩ | ⟨ks, ks', hk, hk', heq⟩
      · rw [hk, hk']
        exact h.tell _ _
      · rw [hk, hk']
        exact h.followAll hs heq method
  · next of _ =>
    rcases map_eq_map_cases (hr of rfl) with ⟨hk, hk'⟩ | ⟨k, k', hk, hk', heq⟩
    · rw [hk, hk']
      exact h.tell _ _
    · rw [hk, hk']
      exact h.follow hs heq heq method
  · exact h.tell _ _

omit hδ in
theorem callStatic_like (h : Like i δ c c') (hs : Near i δ s s') {r : ClassRef}
    (hr : Agree i δ s s' r) (method : String) :
    Like i δ (c.callStatic s r method) (c'.callStatic s' r method) := by
  cases r with
  | named => exact h.follow hs rfl rfl method
  | selfRef => exact h.follow hs hs.this (Option.some.inj hr) method
  | staticRef => exact h.follow hs hs.this hs.this method
  | parentRef =>
    have hparent : s.parent.map (look i δ) = s'.parent.map (look i δ) := hr
    unfold Scan.callStatic
    dsimp only
    rcases map_eq_map_cases hparent with ⟨hk, hk'⟩ | ⟨k, k', hk, hk', heq⟩
    · rw [hk, hk']
      exact h.tell _ _
    · rw [hk, hk']
      exact h.follow hs hs.this heq method
  | dynamic | anonymous => exact h.tell _ _

omit hδ in
theorem assignTo_like (h : Like i δ c c') {var : String} {op : AssignOp} {v : Expr}
    (hr : ∀ r, (Step.assign var op v).ref? = some r → Agree i δ s s' r) :
    Like i δ (c.assignTo s var op v) (c'.assignTo s' var op v) := by
  have hmade : (Scan.made? s op v).map (look i δ) = (Scan.made? s' op v).map (look i δ) := by
    unfold Scan.made?
    split
    · next of _ => exact hr of rfl
    · rfl
  unfold Scan.assignTo
  rcases map_eq_map_cases hmade with ⟨hk, hk'⟩ | ⟨k, k', hk, hk', heq⟩
  · rw [hk, hk']
    exact h.forget var
  · rw [hk, hk']
    exact (h.forget var).setLocal var heq

theorem run_like {step : Step} (h : Like i δ c c') (hs : Near i δ s s')
    (hr : ∀ r, step.ref? = some r → Agree i δ s s' r) :
    Like i δ (step.run s c) (step.run s' c') := by
  cases step with
  | raise e => exact recordThrow_like hδ h hs hr
  | call t m f =>
    cases m with
    | dynamic => exact h.tell _ _
    | ident method =>
      cases f with
      | true => exact h.tell _ _
      | false => exact callOn_like h hs hr method
  | callStatic r m f =>
    cases m with
    | dynamic => exact h
    | ident method =>
      cases f with
      | true => exact h.tell _ _
      | false => exact callStatic_like h hs (hr r rfl) method
  | assign var op v => exact assignTo_like h hr
  | loop t =>
    cases t with
    | var _ var => exact h.forget var
    | _ => exact h
  | enter var types =>
    exact ⟨(h.dropLocal var).locals, congrArg (List.cons _) h.catchVars, h.raised, h.calls⟩
  | leave => exact ⟨h.locals, congrArg List.tail h.catchVars, h.raised, h.calls⟩
  | bound => exact h

theorem perform_like {xs : List (Amid Step)} (h : Like i δ c c') (hs : Near i δ s s')
    (hr : ∀ x ∈ xs, ∀ r, x.what.ref? = some r → Agree i δ s s' r) :
    Like i δ (perform s xs c) (perform s' xs c') := by
  induction xs generalizing c c' with
  | nil => exact h
  | cons x xs ih =>
    refine ih (run_like hδ h (hs.within _) ?_) fun y hy => hr y (List.mem_cons_of_mem _ hy)
    intro r href
    exact (hr x List.mem_cons_self r href).within _

theorem summarize_like {params params' : List ParamInfo} {b : Block} (hs : Near i δ s s')
    (hp : paramLocals i params = paramLocals i params')
    (hr : ∀ step ∈ stepsOfBlock b, ∀ r, step.ref? = some r → Agree i δ s s' r) :
    (∀ d, (∃ o ∈ (summarize s params b).1.raised, δ o = d) ↔
      ∃ o ∈ (summarize s' params' b).1.raised, δ o = d) ∧
    (summarize s params b).1.calls.map (lookSite i δ) =
      (summarize s' params' b).1.calls.map (lookSite i δ) := by
  rw [summarize_eq, summarize_eq, hs.index, hs.index', hp]
  have h := perform_like hδ (.refl (Scan.start (paramLocals i params'))) hs
    fun x hx => hr x.what (List.mem_map_of_mem hx)
  refine ⟨h.raised, ?_⟩
  rw [List.map_reverse, List.map_reverse, h.calls]

end

end

end Throws

end ContractAudit
