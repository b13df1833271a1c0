import ContractAudit.Contract.Compare
import ContractAudit.Proofs.Loading
import ContractAudit.Proofs.Stretches

/-! Two tables that find the same types, the spelling of their files aside. Main statement: whatever
a table is asked, the other answers the same: what lies above a class, its methods and those of its
traits, its contracts, and what is wrong with a method. -/
namespace ContractAudit

open Source

/-- A method whose file is spelled otherwise. -/
def MethodInfo.respell (σ : Path → Path) (m : MethodInfo) : MethodInfo :=
  { m with file := m.file.map σ }

/-- A type whose file is spelled otherwise. -/
def ClassInfo.respell (σ : Path → Path) (c : ClassInfo) : ClassInfo :=
  { c with file := c.file.map σ, methods := c.methods.map (·.respell σ) }

/-- Each type that the second list finds is what the first finds, spelled otherwise. -/
def Respelled (σ : Path → Path) (cs ds : List ClassInfo) : Prop :=
  ∀ key, findClass? ds key = (findClass? cs key).map (·.respell σ)

variable {σ : Path → Path}

theorem ownMethod?_respell (c : ClassInfo) (name : String) :
    (c.respell σ).ownMethod? name = (c.ownMethod? name).map (·.respell σ) := by
  rw [ClassInfo.ownMethod?, ClassInfo.respell, List.find?_map]
  rfl

theorem findClass?_map {f : ClassInfo → ClassInfo} (hf : ∀ c, (f c).key = c.key)
    (cs : List ClassInfo) (key : String) :
    findClass? (cs.map f) key = (findClass? cs key).map f := by
  rw [findClass?, List.find?_map, findClass?]
  congr 2
  funext c
  rw [Function.comp_apply, hf]

theorem respelled_map (cs : List ClassInfo) : Respelled σ cs (cs.map (·.respell σ)) :=
  findClass?_map (f := ClassInfo.respell σ) (fun _ => rfl) cs

theorem Respelled.drop {cs ds : List ClassInfo} (h : Respelled σ cs ds) (key : String) :
    Respelled σ (dropClass cs key) (dropClass ds key) := by
  intro k
  rw [findClass?_dropClass, findClass?_dropClass, h k]
  split <;> rfl

theorem MethodInfo.respell_id (m : MethodInfo) : m.respell id = m := by
  simp [respell]

theorem ClassInfo.respell_id (c : ClassInfo) : c.respell id = c := by
  have hmethods : (fun m : MethodInfo => m.respell id) = id := funext MethodInfo.respell_id
  simp [respell, hmethods]

namespace Index

theorem climb_of_none {unseen : List ClassInfo} {e : Edge} {pending : List Edge}
    (h : findClass? unseen (classKey e.target) = none) :
    climb unseen (e :: pending) = e :: climb unseen pending := by
  rw [climb]
  split
  · rfl
  · next h' => cases h.symm.trans h'

theorem climb_of_some {unseen : List ClassInfo} {e : Edge} {pending : List Edge} {c : ClassInfo}
    (h : findClass? unseen (classKey e.target) = some c) :
    climb unseen (e :: pending) =
      e :: climb (dropClass unseen (classKey e.target)) (edgesOf c ++ pending) := by
  rw [climb]
  split
  · next h' => cases h.symm.trans h'
  · next h' =>
    cases h.symm.trans h'
    rfl

theorem climb_respelled {cs ds : List ClassInfo} (h : Respelled σ cs ds) (pending : List Edge) :
    climb ds pending = climb cs pending := by
  fun_induction climb cs pending generalizing ds with
  | case1 cs => rw [climb]
  | case2 cs e pending hnone ih =>
    have hnone' : findClass? ds (classKey e.target) = none := by rw [h, hnone]; rfl
    rw [climb_of_none hnone', ih h]
  | case3 cs e pending c hsome ih =>
    have hsome' : findClass? ds (classKey e.target) = some (c.respell σ) := by rw [h, hsome]; rfl
    have hedges : edgesOf (c.respell σ) = edgesOf c := rfl
    rw [climb_of_some hsome', hedges, ih (h.drop _)]

theorem lineage_respelled {cs ds : List ClassInfo} (h : Respelled σ cs ds) (name : String) :
    lineage ds name = (lineage cs name).map (·.respell σ) := by
  fun_induction lineage cs name generalizing ds with
  | case1 cs name hnone =>
    exact lineage_of_none (by rw [h, hnone]; rfl)
  | case2 cs name c hsome ih =>
    have hsome' : findClass? ds (classKey name) = some (c.respell σ) := by rw [h, hsome]; rfl
    have hparent : (c.respell σ).parent = c.parent := rfl
    rw [lineage_of_some hsome', hparent]
    cases hp : c.parent with
    | none => rfl
    | some p =>
      dsimp only
      rw [ih p (h.drop _), List.map_cons]

section
variable {unseen : List ClassInfo} {seen pending : List String} {n : String}

theorem expandTraits_other (hseen : ¬ seen.contains (classKey n) = true)
    (h : ∀ t, findClass? unseen (classKey n) = some t → t.kind ≠ .traitType) :
    expandTraits unseen seen (n :: pending) =
      (n, none) :: expandTraits unseen (classKey n :: seen) pending := by
  rw [expandTraits, if_neg hseen]
  split
  · rfl
  · next t ht => rw [if_neg (h t ht)]

theorem expandTraits_trait {t : ClassInfo} (hseen : ¬ seen.contains (classKey n) = true)
    (h : findClass? unseen (classKey n) = some t) (hk : t.kind = .traitType) :
    expandTraits unseen seen (n :: pending) = (n, some t) ::
      expandTraits (dropClass unseen (classKey n)) (classKey n :: seen) (t.traits ++ pending) := by
  rw [expandTraits, if_neg hseen]
  split
  · next hnone => cases hnone.symm.trans h
  · next u hu =>
    cases hu.symm.trans h
    rw [if_pos hk]

end

theorem expandTraits_respelled {cs ds : List ClassInfo} (h : Respelled σ cs ds)
    (seen names : List String) : expandTraits ds seen names =
      (expandTraits cs seen names).map (Prod.map id (Option.map (·.respell σ))) := by
  fun_induction expandTraits cs seen names generalizing ds with
  | case1 cs seen => rw [expandTraits]; rfl
  | case2 cs seen n names hseen ih => rw [expandTraits, if_pos hseen, ih h]
  | case3 cs seen n names hseen hnone ih =>
    rw [expandTraits_other hseen (by simp [h _, hnone]), ih h]
    rfl
  | case4 cs seen n names hseen t hsome hk ih =>
    have hsome' : findClass? ds (classKey n) = some (t.respell σ) := by rw [h, hsome]; rfl
    have htraits : (t.respell σ).traits = t.traits := rfl
    rw [expandTraits_trait hseen hsome' hk, htraits, ih (h.drop _)]
    rfl
  | case5 cs seen n names hseen t hsome hk ih =>
    have hother : ∀ u, findClass? ds (classKey n) = some u → u.kind ≠ .traitType := by
      intro u hu
      rw [h, hsome] at hu
      cases hu
      exact hk
    rw [expandTraits_other hseen hother, ih h]
    rfl

/-- Each type that the second table finds is what the first finds, spelled otherwise. -/
abbrev Respells (σ : Path → Path) (i j : Index) : Prop := Respelled σ i.classes j.classes

theorem respells_id (i : Index) : Respells id i i := by
  intro key
  have hclasses : (fun c : ClassInfo => c.respell id) = id := funext ClassInfo.respell_id
  rw [hclasses, Option.map_id]
  rfl

namespace Respells
variable {i j : Index} (h : Respells σ i j)
include h

theorem get? (name : String) : j.get? name = (i.get? name).map (·.respell σ) := h _

theorem contains : j.contains = i.contains := by
  funext name
  rw [Index.contains, Index.contains, get? h, Option.isSome_map]

theorem declaredName : j.declaredName = i.declaredName := by
  funext name
  rw [Index.declaredName, Index.declaredName, get? h, Option.map_map]
  rfl

theorem ascent (name : String) : j.ascent name = i.ascent name := by
  unfold Index.ascent
  rw [get? h]
  cases i.get? name with
  | none => rfl
  | some c => exact climb_respelled (h.drop c.key) (edgesOf c)

theorem isSubtype : j.isSubtype = i.isSubtype := by
  funext sub sup
  rw [Index.isSubtype, Index.isSubtype, ascent h]

theorem interfaces (name : String) : j.interfaces name = i.interfaces name := by
  rw [Index.interfaces, Index.interfaces, ascent h, declaredName h]

theorem declarations (name : String) :
    j.declarations name = (i.declarations name).map (·.respell σ) := by
  rw [Index.declarations, Index.declarations, lineage_respelled h, interfaces h,
    List.map_append, List.map_filterMap]
  congr 2
  funext n
  exact get? h n

theorem method? (owner name : String) :
    j.method? owner name = (i.method? owner name).map (·.respell σ) := by
  rw [method?_eq_findSome?, method?_eq_findSome?, declarations h, List.findSome?_map]
  have hown : (fun c : ClassInfo => c.ownMethod? name) ∘ ClassInfo.respell σ =
      fun c => (c.ownMethod? name).map (·.respell σ) :=
    funext fun c => ownMethod?_respell c name
  rw [hown, List.map_findSome?]
  rfl

theorem methods (name : String) : j.methods name = (i.methods name).map (·.respell σ) := by
  have hall : ((i.declarations name).map (·.respell σ)).flatMap (·.methods) =
      ((i.declarations name).flatMap (·.methods)).map (·.respell σ) := by
    rw [List.flatMap_map, List.map_flatMap]
    rfl
  rw [Index.methods, Index.methods, declarations h, hall]
  exact distinct_map _ _ _ (fun _ _ => rfl) _

theorem adopted (c : ClassInfo) :
    j.adopted (c.respell σ) = (i.adopted c).map (·.respell σ) := by
  have htraits : j.traitsOf (c.respell σ) =
      (i.traitsOf c).map (Prod.map id (Option.map (·.respell σ))) :=
    expandTraits_respelled h [] c.traits
  have hoffered : (j.traitsOf (c.respell σ)).flatMap (fun x => (x.2.map (·.methods)).getD []) =
      ((i.traitsOf c).flatMap fun x => (x.2.map (·.methods)).getD []).map (·.respell σ) := by
    rw [htraits, List.flatMap_map, List.map_flatMap]
    congr 1
    funext ⟨n, t⟩
    cases t <;> rfl
  have hwanted (ms : List MethodInfo) :
      (ms.map (·.respell σ)).filter (fun m => ((c.respell σ).ownMethod? m.name).isNone) =
        (ms.filter fun m => (c.ownMethod? m.name).isNone).map (·.respell σ) := by
    rw [List.filter_map]
    congr 1
    apply List.filter_congr
    intro m _
    rw [Function.comp_apply, ownMethod?_respell, Option.isNone_map]
    rfl
  have hdistinct (ms : List MethodInfo) :
      distinct (fun m n => Text.same m.name n.name) (ms.map (·.respell σ)) =
        (distinct (fun m n => Text.same m.name n.name) ms).map (·.respell σ) :=
    distinct_map _ _ _ (fun _ _ => rfl) ms
  simp only [Index.adopted, hoffered, hwanted, hdistinct, List.map_map]
  rfl

theorem applyTraits : Respells σ i.applyTraits j.applyTraits := by
  intro key
  rw [Index.applyTraits, Index.applyTraits,
    findClass?_map (f := fun c => { c with methods := c.methods ++ j.adopted c }) (fun _ => rfl),
    findClass?_map (f := fun c => { c with methods := c.methods ++ i.adopted c }) (fun _ => rfl),
    h key]
  cases findClass? i.classes key with
  | none => rfl
  | some c =>
    have hmethods : (c.respell σ).methods = c.methods.map (·.respell σ) := rfl
    simp only [Option.map_some, Option.some.injEq, adopted h, hmethods, ← List.map_append]
    rfl

end Respells

end Index

namespace Throws
variable {i j : Index}

theorem classOf_index (s : Setting) (j : Index) (r : ClassRef) :
    Setting.classOf { s with index := j } r = s.classOf r := by
  cases r <;> rfl

/-- A frame whose method is spelled otherwise. -/
def Frame.respell (σ : Path → Path) (f : Frame) : Frame := ⟨f.thisClass, f.method.respell σ⟩

variable (h : Index.Respells σ i j)
include h

theorem canonical_respells : canonical j = canonical i := by
  funext name
  rw [canonical, canonical, h.declaredName]

theorem isCaught_respells : isCaught j = isCaught i := by
  funext caught exception
  rw [isCaught, isCaught, h.isSubtype]

theorem paramLocals_respells (params : List ParamInfo) :
    paramLocals j params = paramLocals i params := by
  rw [paramLocals, paramLocals, h.contains]

/- Of the table a step asks only what a raised class is and whether it is caught. -/
theorem run_respells {s : Setting} (hs : s.index = i) (step : Step) (c : Scan) :
    step.run { s with index := j } c = step.run s c := by
  have hraise (name : String) (c : Scan) : c.raise { s with index := j } name = c.raise s name := by
    simp only [Scan.raise, hs, canonical_respells h, isCaught_respells h]
  cases step with
  | raise e =>
    simp only [Step.run, Scan.recordThrow, hraise, classOf_index]
  | call t m f =>
    simp only [Step.run, Scan.recordCall, Scan.callOn, Scan.follow, classOf_index]
  | callStatic r m f => cases r <;> rfl
  | assign var op v =>
    simp only [Step.run, Scan.assignTo, Scan.made?, classOf_index]
  | loop | enter | leave | bound => rfl

theorem perform_respells {s : Setting} (hs : s.index = i) (xs : List (Amid Step)) (c : Scan) :
    perform { s with index := j } xs c = perform s xs c := by
  induction xs generalizing c with
  | nil => rfl
  | cons x xs ih =>
    have hwithin : Setting.within { s with index := j } (guardsOf x.around) =
        { s.within (guardsOf x.around) with index := j } := by
      unfold Setting.within
      split <;> rfl
    have hindex : (s.within (guardsOf x.around)).index = i := (s.index_within _).trans hs
    rw [perform_cons, perform_cons, hwithin, run_respells h hindex, ih]

theorem summarize_respells {s : Setting} (hs : s.index = i) (params : List ParamInfo) (b : Block) :
    summarize { s with index := j } params b = summarize s params b := by
  simp only [summarize, scanBlock_deeds, perform_respells h hs, hs, paramLocals_respells h]

theorem settingOf_respells (c : Config) (f : Frame) :
    settingOf j c (f.respell σ) = { settingOf i c f with index := j } := by
  have hparent : (j.get? f.method.declaringClass).bind (·.parent) =
      (i.get? f.method.declaringClass).bind (·.parent) := by
    rw [h.get?]
    cases i.get? f.method.declaringClass <;> rfl
  simp only [settingOf, Frame.respell, MethodInfo.respell, hparent]

end Throws

namespace Signature
variable {i j : Index} (h : Index.Respells σ i j)
include h

theorem declaredSubtype_respells : declaredSubtype j = declaredSubtype i := by
  have hatom : atomSubtype j = atomSubtype i := by
    funext sub sup
    simp only [atomSubtype, h.isSubtype]
  have hconj : conjunctionSubtype j = conjunctionSubtype i := by
    funext sub sup
    rw [conjunctionSubtype, conjunctionSubtype, hatom]
  funext sub sup
  cases sub <;> cases sup <;> simp only [declaredSubtype, subtype, hconj]

end Signature

namespace Contract
open Throws
variable {i j : Index} (h : Index.Respells σ i j)
include h

theorem declaredThrows_respells (m : MethodInfo) :
    declaredThrows j (m.respell σ) = declaredThrows i m := by
  have hcontext : (j.get? m.sourceOwner).map (·.context) =
      (i.get? m.sourceOwner).map (·.context) := by
    rw [h.get?, Option.map_map]
    rfl
  have hmeant (context : NameContext) : meant context j = meant context i := by
    funext name
    simp only [meant, h.contains]
  have hdeclared (context : NameContext) : declared context j = declared context i := by
    funext doc
    cases doc with
    | none => rfl
    | some doc => rw [declared, declared, hmeant]
  simp only [declaredThrows, MethodInfo.respell, hcontext, hdeclared, h.declaredName]

theorem faults_respells (raised : NameSet) (m expected : MethodInfo) :
    faults j raised (m.respell σ) (expected.respell σ) = faults i raised m expected := by
  have hexcess : excess j = excess i := by
    funext permitted found
    simp only [excess, isPermitted, h.isSubtype]
  have hreturn : returnFaults j = returnFaults i := by
    funext found expected
    rw [returnFaults, returnFaults, Signature.declaredSubtype_respells h]
  have hparam : paramFaults j = paramFaults i := by
    funext found expected
    rw [paramFaults, paramFaults, Signature.declaredSubtype_respells h]
  simp only [faults, declaredThrows_respells h, hexcess, hreturn, hparam]
  rfl

theorem pairs_respells (subject contract : ClassInfo) :
    pairs j (subject.respell σ) (contract.respell σ) =
      (pairs i subject contract).map (Prod.map (·.respell σ) (·.respell σ)) := by
  have hover (expected : MethodInfo) : overriding? j (subject.respell σ) (expected.respell σ) =
      (overriding? i subject expected).map (·.respell σ) := by
    have hmethod := h.method? subject.name expected.name
    rw [overriding?, overriding?]
    change ((j.method? subject.name expected.name).filter _) = _
    rw [hmethod]
    cases i.method? subject.name expected.name with
    | none => rfl
    | some m =>
      rw [Option.map_some, Option.filter_some, Option.filter_some]
      change (if (!Text.same m.declaringClass expected.declaringClass) = true then _ else _) = _
      split <;> rfl
  have hcomparable : ((i.methods contract.name).map (·.respell σ)).filter isComparable =
      ((i.methods contract.name).filter isComparable).map (·.respell σ) := by
    rw [List.filter_map]
    rfl
  rw [pairs, pairs]
  change ((j.methods contract.name).filter isComparable).filterMap _ = _
  rw [h.methods, hcomparable, List.filterMap_map, List.map_filterMap]
  congr 1
  funext expected
  rw [Function.comp_apply, hover, Option.map_map, Option.map_map]
  rfl

theorem load_respells (name : String) :
    load j name = (load i name).map (Prod.map (·.respell σ) (List.map (·.respell σ))) := by
  have hcontracts (subject : ClassInfo) : contracts j (subject.respell σ) =
      (contracts i subject).map (List.map (·.respell σ)) := by
    have hnames : contractNames j (subject.respell σ) = contractNames i subject := by
      rw [contractNames, contractNames]
      change j.interfaces subject.name ++ _ = _
      rw [h.interfaces]
      rfl
    rw [contracts_eq, contracts_eq, hnames, h.contains]
    cases (contractNames i subject).find? (!i.contains ·) with
    | some n => rfl
    | none =>
      have hget : j.get? = fun n => (i.get? n).map (·.respell σ) := funext h.get?
      rw [hget, ← List.map_filterMap]
      rfl
  rw [load, load, h.get?]
  cases i.get? name with
  | none => rfl
  | some subject =>
    dsimp only [Option.map_some]
    rw [hcontracts]
    cases contracts i subject <;> rfl

end Contract

end ContractAudit
