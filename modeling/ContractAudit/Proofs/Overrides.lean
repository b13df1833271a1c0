import ContractAudit.Proofs.FrameKey
import ContractAudit.Proofs.Report

/-! Which methods a report is about. Main statement: a violation concerns the first declaration of
its method in the class and its parents; only where none of them declares the method does it concern
the declaration of an interface, and then beside another declaration of it above the class. -/
namespace ContractAudit

namespace Index
variable {i : Index} {name : String} {m : MethodInfo}

/-- A method is declared by a class at or above this one. -/
def DeclaredAbove (i : Index) (name : String) (m : MethodInfo) : Prop :=
  ∃ k d, i.Above (classKey name) k ∧ findClass? i.classes k = some d ∧ m ∈ d.methods

theorem DeclaredAbove.of_above {upper : String} (h : i.DeclaredAbove upper m)
    (habove : i.Above (classKey name) (classKey upper)) : i.DeclaredAbove name m := by
  obtain ⟨k, d, hk, hd, hm⟩ := h
  exact ⟨k, d, habove.trans hk, hd, hm⟩

/- The types still unseen are found as they are in the whole table. -/
theorem above_of_mem_lineage {unseen : List ClassInfo} {d : ClassInfo}
    (hunseen : ∀ k c, findClass? unseen k = some c → findClass? i.classes k = some c)
    (h : d ∈ lineage unseen name) :
    ∃ k, i.Above (classKey name) k ∧ findClass? i.classes k = some d := by
  fun_induction lineage unseen name with
  | case1 => cases h
  | case2 unseen name c hfound ih =>
    rcases List.mem_cons.mp h with rfl | h
    · exact ⟨_, .refl, hunseen _ _ hfound⟩
    · cases hp : c.parent with
      | none =>
        rw [hp] at h
        cases h
      | some p =>
        rw [hp] at h
        have hrest : ∀ k c', findClass? (dropClass unseen (classKey name)) k = some c' →
            findClass? i.classes k = some c' := by
          intro k c' hk
          rw [findClass?_dropClass] at hk
          split at hk
          · cases hk
          · exact hunseen k c' hk
        obtain ⟨k, hk, hd⟩ := ih p hrest h
        have hup : i.Up (classKey name) (classKey p) :=
          ⟨c, hunseen _ _ hfound, .parent p, by simp [edgesOf, hp], rfl⟩
        exact ⟨k, .head hup hk, hd⟩

theorem above_of_mem_interfaces {n : String} (h : n ∈ i.interfaces name) :
    i.Above (classKey name) (classKey n) := by
  obtain ⟨m, hm, rfl⟩ := mem_ascent_of_mem_interfaces h
  obtain ⟨k, c, hk, hc, he⟩ := mem_ascent.mp hm
  have hkey : classKey (i.declaredName m) = classKey m := by
    cases hget : i.get? m with
    | none => rw [declaredName, hget]; rfl
    | some d => rw [declaredName, hget]; exact classKey_of_get? hget
  rw [hkey]
  exact hk.tail ⟨c, hc, _, he, rfl⟩

theorem above_of_mem_declarations {d : ClassInfo} (h : d ∈ i.declarations name) :
    ∃ k, i.Above (classKey name) k ∧ findClass? i.classes k = some d := by
  rcases List.mem_append.mp h with h | h
  · exact above_of_mem_lineage (fun _ _ hfound => hfound) h
  · obtain ⟨n, hn, hget⟩ := List.mem_filterMap.mp h
    exact ⟨_, above_of_mem_interfaces hn, hget⟩

/-- The methods of a class are declared at or above it. -/
theorem declaredAbove_of_mem_methods (h : m ∈ i.methods name) : i.DeclaredAbove name m := by
  obtain ⟨d, hd, hm⟩ := List.mem_flatMap.mp (mem_of_mem_distinct h)
  obtain ⟨k, hk, hfound⟩ := above_of_mem_declarations hd
  exact ⟨k, d, hk, hfound, hm⟩

theorem declaredAbove_of_method? {n : String} (h : i.method? name n = some m) :
    i.DeclaredAbove name m := by
  rw [method?_eq_findSome?] at h
  obtain ⟨d, hd, hm⟩ := List.exists_of_findSome?_eq_some h
  obtain ⟨k, hk, hfound⟩ := above_of_mem_declarations hd
  exact ⟨k, d, hk, hfound, List.mem_of_find?_eq_some hm⟩

end Index

namespace Contract
open Index
variable {i : Index} {c : Config} {w : Workspace} {subject : ClassInfo} {name : String}

/-- The class or one of its parents declares the method, itself or through a trait. -/
def Overrides (i : Index) (subject : ClassInfo) (m : MethodInfo) : Prop :=
  ∃ k ∈ lineage i.classes subject.name, k.ownMethod? m.name = some m

/-- Neither the class nor a parent declares a method of that name. The method is that of an
interface, and the one that is expected is another that a class at or above declares. -/
structure Promised (i : Index) (subject : ClassInfo) (m expected : MethodInfo) : Prop where
  absent : ∀ k ∈ lineage i.classes subject.name, k.ownMethod? m.name = none
  given : ∃ d ∈ (i.interfaces subject.name).filterMap i.get?, d.ownMethod? m.name = some m
  rival : i.DeclaredAbove subject.name expected ∧ Text.lower expected.name = Text.lower m.name ∧
    Text.same m.declaringClass expected.declaringClass = false

theorem method?_congr_name {owner a b : String} (h : Text.lower a = Text.lower b) :
    i.method? owner a = i.method? owner b := by
  rw [method?_eq_findSome?, method?_eq_findSome?]
  congr 1
  funext k
  exact Throws.ownMethod?_congr k h

theorem overrides_or_promised {m m' : MethodInfo} (hm : i.method? subject.name m.name = some m)
    (hm' : i.DeclaredAbove subject.name m') (hname : Text.lower m'.name = Text.lower m.name)
    (hclass : Text.same m.declaringClass m'.declaringClass = false) :
    Overrides i subject m ∨ Promised i subject m m' := by
  rw [method?_eq_findSome?, declarations, List.findSome?_append] at hm
  cases hown : (lineage i.classes subject.name).findSome? (·.ownMethod? m.name) with
  | some o =>
    rw [hown] at hm
    cases hm
    obtain ⟨k, hk, ho⟩ := List.exists_of_findSome?_eq_some hown
    exact Or.inl ⟨k, hk, ho⟩
  | none =>
    rw [hown] at hm
    obtain ⟨d, hd, ho⟩ := List.exists_of_findSome?_eq_some hm
    exact Or.inr ⟨List.findSome?_eq_none_iff.mp hown, ⟨d, hd, ho⟩, ⟨hm', hname, hclass⟩⟩

/- A contract lies above the class. -/
theorem above_of_mem_contractNames {n : String} (hs : i.get? name = some subject)
    (h : n ∈ contractNames i subject) : i.Above (classKey subject.name) (classKey n) := by
  rcases List.mem_append.mp h with h | h
  · exact above_of_mem_interfaces h
  · have hup : i.Up (classKey subject.name) (classKey n) :=
      ⟨subject, get?_name hs, .parent n, by simp_all [edgesOf], rfl⟩
    exact .single hup

/- What a violation of a report was compared with. -/
theorem comparison_of_mem_report {contracts : List ClassInfo} {v : Violation}
    (hs : i.get? name = some subject)
    (hcontracts : (contractNames i subject).map i.get? = contracts.map some)
    (h : v ∈ (foundIn i c w subject [] (comparisons i subject contracts)).flatten) :
    ∃ x before, v ∈ foundAfter i c w subject before x ∧ Binds i subject x ∧
      i.get? v.contractName = some x.contract ∧ v.methodName = x.method.name ∧
      i.method? subject.name x.method.name = some x.method ∧
      i.DeclaredAbove subject.name x.expected ∧
      Text.lower x.expected.name = Text.lower x.method.name := by
  obtain ⟨x, hx, before, hv⟩ := mem_foundIn h
  obtain ⟨contract, hcontract, hpair⟩ := List.mem_flatMap.mp hx
  obtain ⟨y, hy, rfl⟩ := List.mem_map.mp hpair
  have hbinds := (mem_pairs (x := ⟨contract, y.1, y.2⟩)).mp hy
  obtain ⟨hmethod, hnamed⟩ := names_of_mem_foundAfter hv
  have hname := method?_name hbinds.found
  -- the contract is found under one of the names of the contracts, which lie above the class
  have hmem : some contract ∈ (contractNames i subject).map i.get? := by
    rw [hcontracts]
    exact List.mem_map_of_mem hcontract
  obtain ⟨n, hn, hget⟩ := List.mem_map.mp hmem
  have habove : i.Above (classKey subject.name) (classKey contract.name) := by
    rw [classKey_of_get? hget]
    exact above_of_mem_contractNames hs hn
  refine ⟨_, before, hv, hbinds, hnamed ▸ get?_name hget, hmethod, ?_,
    (declaredAbove_of_mem_methods hbinds.listed).of_above habove, hname.symm⟩
  rw [method?_congr_name hname]
  exact hbinds.found

/-- Every violation of a class comes from a comparison with the contract that it names. It concerns
the method that a call on the class runs, and the class or one of its parents declares it. The one
exception is a method that none of them declares: it is that of an interface, compared with another
declaration above the class. So a class that has a method only from its interfaces has no violation
about it, unless it has the method from two of them. -/
theorem violations_concern_overrides (i : Index) (c : Config) (name : String) (w : Workspace)
    {report : List Violation} (h : ((compareClass i c name).run w).1 = .ok report) :
    ∃ subject, i.get? name = some subject ∧
      (∀ v ∈ report, ∃ x before, v ∈ foundAfter i c w subject before x ∧ Binds i subject x ∧
        i.get? v.contractName = some x.contract ∧
        i.method? subject.name v.methodName = some x.method ∧ v.methodName = x.method.name ∧
        (Overrides i subject x.method ∨ Promised i subject x.method x.expected)) ∧
      ∀ n, (∀ k ∈ lineage i.classes subject.name, k.ownMethod? n = none) →
        (∀ m m', i.DeclaredAbove subject.name m → i.DeclaredAbove subject.name m' →
          Text.lower m.name = Text.lower n → Text.lower m'.name = Text.lower n →
          Text.same m.declaringClass m'.declaringClass = true) →
        ∀ v ∈ report, Text.lower v.methodName ≠ Text.lower n := by
  obtain ⟨subject, contracts, hs, hcontracts, rfl⟩ := compareClass_report h
  refine ⟨subject, hs, ?_, ?_⟩
  · intro v hv
    obtain ⟨x, before, hfound, hbinds, hcontract, hmethod, hm, hexpected, hname⟩ :=
      comparison_of_mem_report hs hcontracts hv
    exact ⟨x, before, hfound, hbinds, hcontract, hmethod ▸ hm, hmethod,
      overrides_or_promised hm hexpected hname hbinds.elsewhere⟩
  · intro n habsent hone v hv hn
    obtain ⟨x, _, _, hbinds, _, hmethod, hm, hexpected, hname⟩ :=
      comparison_of_mem_report hs hcontracts hv
    rw [hmethod] at hn
    have hsame := hone _ _ (declaredAbove_of_method? hm) hexpected hn (hname.trans hn)
    rw [hbinds.elsewhere] at hsame
    cases hsame

/- An abstract class that declares nothing, with two interfaces that declare one method. -/
namespace Sample

def promised (doc : Option String) : MethodDecl := ⟨"m", [], doc, [], none, false, none, default⟩

def twiceBlock : NamespaceBlock :=
  ⟨none, [], [⟨.interfaceType, "I", "I", [], [], [], [],
      [promised (some "/** @throws LogicException */")], none, default⟩,
    ⟨.interfaceType, "J", "J", [], [], [], [], [promised none], none, default⟩,
    ⟨.classType, "C", "C", [.abstractMod], [],
      [⟨"I", some "I", default⟩, ⟨"J", some "J", default⟩], [], [], none, default⟩], default⟩

def twiceIndex : Index := ⟨twiceBlock.classes Throws.Sample.path, []⟩

def firstInterface : ClassInfo := (twiceBlock.classes Throws.Sample.path).head (by decide)

def secondInterface : ClassInfo :=
  (twiceBlock.classes Throws.Sample.path).get ⟨1, by decide⟩

def bareClass : ClassInfo := (twiceBlock.classes Throws.Sample.path).getLast (by decide)

/-- The method of the first interface beside that of the second. -/
def promises : Comparison :=
  ⟨secondInterface, firstInterface.methods.head (by decide +kernel),
    secondInterface.methods.head (by decide +kernel)⟩

theorem interfaces_twice : twiceIndex.interfaces "C" = ["I", "J"] := by
  have hget : twiceIndex.get? "C" = some bareClass := by decide +kernel
  have hfirst : findClass? (dropClass twiceIndex.classes bareClass.key)
      (classKey (Edge.interface "I").target) = some firstInterface := by decide +kernel
  have hsecond : findClass? (dropClass (dropClass twiceIndex.classes bareClass.key)
      (classKey (Edge.interface "I").target)) (classKey (Edge.interface "J").target) =
        some secondInterface := by decide +kernel
  have hascent : twiceIndex.ascent "C" = [.interface "I", .interface "J"] := by
    rw [ascent, hget]
    change climb (dropClass twiceIndex.classes bareClass.key) [.interface "I", .interface "J"] = _
    rw [climb_of_some hfirst]
    change _ :: climb _ [.interface "J"] = _
    rw [climb_of_some hsecond]
    change _ :: _ :: climb _ [] = _
    rw [climb]
  rw [interfaces, hascent]
  decide +kernel

/- An interface with none above it has its own methods alone. -/
theorem methods_twice {d : ClassInfo} (hget : twiceIndex.get? d.name = some d)
    (hedges : edgesOf d = []) :
    twiceIndex.declarations d.name = lineage twiceIndex.classes d.name := by
  have hascent : twiceIndex.ascent d.name = [] := by
    rw [ascent, hget]
    change climb _ (edgesOf d) = _
    rw [hedges, climb]
  rw [declarations, interfaces, hascent]
  exact List.append_nil _

theorem comparisons_twice :
    comparisons twiceIndex bareClass [firstInterface, secondInterface] = [promises] := by
  have hmethod : twiceIndex.method? "C" "m" = some promises.method := by
    rw [method?, interfaces_twice]
    decide +kernel
  have hfirst : twiceIndex.methods firstInterface.name = [promises.method] := by
    rw [methods, methods_twice (by decide +kernel) (by decide +kernel)]
    decide +kernel
  have hsecond : twiceIndex.methods secondInterface.name = [promises.expected] := by
    rw [methods, methods_twice (by decide +kernel) (by decide +kernel)]
    decide +kernel
  have hover {e : MethodInfo} (he : e.name = "m") : overriding? twiceIndex bareClass e =
      (some promises.method).filter (!Text.same ·.declaringClass e.declaringClass) := by
    rw [overriding?, he]
    change (twiceIndex.method? "C" "m").filter _ = _
    rw [hmethod]
  have hnone : pairs twiceIndex bareClass firstInterface = [] := by
    have hcomparable : [promises.method].filter isComparable = [promises.method] := by
      decide +kernel
    rw [pairs, hfirst, hcomparable, List.filterMap_cons, hover (by decide +kernel)]
    decide +kernel
  have hone : pairs twiceIndex bareClass secondInterface =
      [(promises.method, promises.expected)] := by
    have hcomparable : [promises.expected].filter isComparable = [promises.expected] := by
      decide +kernel
    rw [pairs, hsecond, hcomparable, List.filterMap_cons, hover (by decide +kernel)]
    decide +kernel
  rw [comparisons, List.flatMap_cons, List.flatMap_singleton, hnone, hone]
  rfl

theorem report_twice {report : List Violation}
    (h : ((compareClass twiceIndex {} "C").run strictWorkspace).1 = .ok report) :
    report = foundAfter twiceIndex {} strictWorkspace bareClass [] promises := by
  obtain ⟨subject, contracts, hs, hcontracts, rfl⟩ := compareClass_report h
  have hget : twiceIndex.get? "C" = some bareClass := by decide +kernel
  cases hget.symm.trans hs
  have hnames : (contractNames twiceIndex bareClass).map twiceIndex.get? =
      [firstInterface, secondInterface].map some := by
    rw [contractNames]
    change (twiceIndex.interfaces "C" ++ []).map _ = _
    rw [interfaces_twice]
    decide +kernel
  rw [hnames] at hcontracts
  cases List.map_injective_iff.mpr (Option.some_injective _) hcontracts
  rw [comparisons_twice, foundIn_cons]
  exact List.append_nil _

theorem checked_twice : ∃ report,
    ((compareClass twiceIndex {} "C").run strictWorkspace).1 = .ok report := by
  have hget : twiceIndex.get? "C" = some bareClass := by decide +kernel
  rw [checked_iff_contracts hget, contractNames]
  change ∀ n ∈ twiceIndex.interfaces "C" ++ [], _
  rw [interfaces_twice]
  decide +kernel

end Sample

theorem violations_concern_overrides_sample : ∃ report,
    ((compareClass Sample.twiceIndex {} "C").run Sample.strictWorkspace).1 = .ok report ∧
    ∀ v ∈ report, ∃ x : Comparison,
      Sample.twiceIndex.method? "C" v.methodName = some x.method ∧
      Promised Sample.twiceIndex Sample.bareClass x.method x.expected := by
  obtain ⟨report, h⟩ := Sample.checked_twice
  have hget : Sample.twiceIndex.get? "C" = some Sample.bareClass := by decide +kernel
  obtain ⟨subject, hs, hall, -⟩ := violations_concern_overrides _ _ _ _ h
  cases hget.symm.trans hs
  refine ⟨report, h, ?_⟩
  intro v hv
  obtain ⟨x, _, _, _, _, hm, _, hover | hpromised⟩ := hall v hv
  · -- no class of the line has a method of its own
    have hempty : ∀ k ∈ lineage Sample.twiceIndex.classes Sample.bareClass.name,
        k.methods = [] := by
      decide +kernel
    obtain ⟨k, hk, hown⟩ := hover
    rw [ClassInfo.ownMethod?, hempty k hk] at hown
    cases hown
  · exact ⟨x, hm, hpromised⟩

/-- A class that has a method only from its interfaces has a violation about it all the same, where
two of them declare it. -/
theorem promised_method_reported : ∃ report,
    ((compareClass Sample.twiceIndex {} "C").run Sample.strictWorkspace).1 = .ok report ∧
    ⟨"C", "m", "J", .annotationThrows "LogicException"⟩ ∈ report ∧
    ∀ k ∈ lineage Sample.twiceIndex.classes "C", k.methods = [] := by
  obtain ⟨report, h⟩ := Sample.checked_twice
  refine ⟨report, h, ?_, by decide +kernel⟩
  rw [Sample.report_twice h]
  have hdeclared : "LogicException" ∈ declaredThrows Sample.twiceIndex Sample.promises.method := by
    decide +kernel
  have hpermits : ¬ Permits Sample.twiceIndex Sample.promises.expected "LogicException" := by
    have hnothing : declaredThrows Sample.twiceIndex Sample.promises.expected = ∅ := by
      decide +kernel
    rintro ⟨a, ha, _⟩
    rw [hnothing] at ha
    exact NameSet.not_mem_empty a ha
  have hcount := ((faults_exact (raisedAfter Sample.twiceIndex {} Sample.strictWorkspace
    Sample.bareClass [] Sample.promises) Sample.promises.method Sample.promises.expected).declared
      "LogicException").1 ⟨hdeclared, hpermits⟩
  exact List.mem_map_of_mem (List.count_pos_iff.mp (hcount ▸ Nat.one_pos))

end Contract

end ContractAudit
