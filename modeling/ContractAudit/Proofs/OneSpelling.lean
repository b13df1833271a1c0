import ContractAudit.Proofs.Levels
import ContractAudit.Proofs.Report

/-! The names in sets of exceptions. Main statement: a declared class is in such a set under its
declared name alone, so a comparison has at most one violation for it from the docblock and one from
the code. -/
namespace ContractAudit

namespace Index
variable {i : Index} {a b : String}

/-- The name is that of a declared class as it is declared, or of a class that is not declared. -/
def AsDeclared (i : Index) (name : String) : Prop := i.declaredName name = name

theorem asDeclared_declaredName (i : Index) (n : String) : i.AsDeclared (i.declaredName n) := by
  unfold AsDeclared
  cases hn : i.get? n with
  | none =>
    have hname : i.declaredName n = n := by rw [declaredName, hn]; rfl
    rw [hname, hname]
  | some d =>
    have hname : i.declaredName n = d.name := by rw [declaredName, hn]; rfl
    rw [hname, declaredName, Contract.get?_name hn]
    rfl

theorem AsDeclared.eq_of_same (ha : i.AsDeclared a) (hb : i.AsDeclared b)
    (h : Text.same a b = true) (hc : i.contains a = true) : a = b := by
  have hget : i.get? a = i.get? b := i.get?_congr (by simpa [Text.same] using h)
  obtain ⟨d, hd⟩ := Option.isSome_iff_exists.mp hc
  have ha' : i.declaredName a = d.name := by rw [declaredName, hd]; rfl
  have hb' : i.declaredName b = d.name := by rw [declaredName, ← hget, hd]; rfl
  calc a = i.declaredName a := ha.symm
    _ = i.declaredName b := ha'.trans hb'.symm
    _ = b := hb

end Index

namespace Throws
variable {i : Index} {c : Config} {r r' : Resolver} {w w' : Workspace} {g : Collected}
  {o : String}

/-- What is raised so far is named as it is declared. -/
def Scan.AsDeclared (i : Index) (x : Scan) : Prop := ∀ o ∈ x.raised, i.AsDeclared o

theorem asDeclared_recording {s : Setting} (hs : s.index = i) :
    Scan.Recording s (Scan.AsDeclared i) where
  tell _ h := h
  raise name h := by
    intro o ho
    rcases NameSet.mem_insert.mp ho with rfl | ho
    · exact hs ▸ s.index.asDeclared_declaredName _
    · exact h o ho
  follow _ _ h := h

theorem summarize_asDeclared (s : Setting) (params : List ParamInfo) (b : Block) :
    ∀ o ∈ (summarize s params b).1.raised, s.index.AsDeclared o := by
  rw [summarize_eq]
  have hstart : (Scan.start (paramLocals s.index params)).AsDeclared s.index :=
    fun o ho => absurd ho (NameSet.not_mem_empty o)
  exact Scan.Recording.perform (fun guards => asDeclared_recording (s.index_within guards))
    (fun _ _ _ h => h) hstart (deeds b)

theorem scanMethod_asDeclared {f : Frame} {s : Summary} (h : (scanMethod i c f).run w = (s, w')) :
    ∀ o ∈ s.raised, i.AsDeclared o := by
  rw [scanMethod_run] at h
  rcases hbody : (body? f.method).run w with ⟨_ | body, w₁⟩
  · rw [hbody] at h
    cases h
    exact fun o ho => absurd ho (NameSet.not_mem_empty o)
  · rw [hbody] at h
    cases h
    exact summarize_asDeclared (settingOf i c f) _ body

/-- All exceptions that are stored or known are named as they are declared. -/
structure Resolver.AsDeclared (i : Index) (r : Resolver) : Prop where
  stored : ∀ {k s}, r.Stores k s → ∀ o ∈ s.raised, i.AsDeclared o
  known : ∀ {k t}, r.known? k = some t → ∀ o ∈ t, i.AsDeclared o

theorem asDeclared_keeps :
    ScanKeeps i c (fun r _ => r.AsDeclared i) (fun _ _ => True) where
  told _ h := h
  extend _ _ := trivial
  called _ _ := trivial
  scan h _ hscan := by
    rcases summaryOf_cases hscan with ⟨_, rfl, rfl⟩ | ⟨_, hrun, rfl⟩
    · exact h
    · refine ⟨?_, h.known⟩
      intro k t hk
      rcases stores_cons hk with ⟨rfl, rfl⟩ | hk
      · exact scanMethod_asDeclared hrun
      · exact h.stored hk

namespace Resolver.AsDeclared

theorem new : Resolver.new.AsDeclared i where
  stored h := by cases h
  known h := by cases h

/- What a node of the graph raises comes from a body or from an answer that was known before. -/
theorem outcomes (h : r.AsDeclared i) (hb : Building i r g []) {p : Nat}
    (ho : Graph.Raises i g.nodes o p) : i.AsDeclared o := by
  induction ho with
  | @own p n hn ho =>
    obtain ⟨s, hs, hraised, _⟩ := hb.nodes n (List.mem_of_getElem? hn)
    exact h.stored hs o (hraised ▸ ho)
  | @settled p n e t hn he ht _ ho =>
    obtain ⟨s, hs, _, hedges⟩ := hb.nodes n (List.mem_of_getElem? hn)
    rw [hedges] at he
    obtain ⟨site, _, he⟩ := List.mem_filterMap.mp he
    obtain ⟨f, _, _, ⟨t', hknown, ht'⟩ | ⟨_, q, _, ht'⟩⟩ := edge?_eq_some.mp he
    · cases ht.symm.trans ht'
      exact h.known hknown o ho
    · cases ht.symm.trans ht'
  | call _ _ _ _ _ ih => exact ih

theorem remember (h : r.AsDeclared i) (hb : Building i r g []) :
    (remember g.nodes (Graph.outcomes i g.nodes) r).AsDeclared i where
  stored hs := h.stored hs
  known {k t} hk := by
    by_cases hm : k ∈ g.keys
    · obtain ⟨p, hp⟩ := List.mem_iff_getElem?.mp hm
      rw [hb.known?_remember hp] at hk
      cases hk
      exact fun o ho => h.outcomes hb (Graph.mem_outcomes.mp ho)
    · rw [known?_remember_of_notMem (hb.keys_eq ▸ hm)] at hk
      exact h.known hk

/- At a depth of none nothing is worked out. -/
theorem query_shallow {owner method : String} {m : MethodInfo} {a : NameSet} (h : r.AsDeclared i)
    (hd : c.maxCallDepth = 0) (hq : Yields (methodThrows i c owner method) r w a r' w')
    (hm : i.method? owner method = some m) : r'.AsDeclared i ∧ ∀ o ∈ a, i.AsDeclared o := by
  obtain ⟨f, r₁, w₁, hf, hrest⟩ := hq.bind_inv
  rw [frame?, hm] at hf
  obtain ⟨rfl, rfl, rfl⟩ := yields_pure.mp hf
  obtain ⟨r₂, r₃, w₃, hget, hlast⟩ := hrest.bind_inv
  cases hget
  cases hk : r₁.known? (Frame.mk owner m).key with
  | some s =>
    rw [hk] at hlast
    obtain ⟨rfl, rfl, rfl⟩ := yields_pure.mp hlast
    exact ⟨h, h.known hk⟩
  | none =>
    rw [hk] at hlast
    simp only [hd, if_true] at hlast
    obtain ⟨rfl, rfl, rfl⟩ := yields_pure.mp hlast
    exact ⟨h, fun o ho => absurd ho (NameSet.not_mem_empty o)⟩

theorem query {owner method : String} {a : NameSet} (h : r.AsDeclared i)
    (hq : Yields (methodThrows i c owner method) r w a r' w') :
    r'.AsDeclared i ∧ ∀ o ∈ a, i.AsDeclared o := by
  cases hm : i.method? owner method with
  | none =>
    obtain ⟨rfl, rfl, _⟩ := methodThrows_none hq hm
    exact ⟨h, fun o ho => absurd ho (NameSet.not_mem_empty o)⟩
  | some m =>
    rcases Nat.eq_zero_or_pos c.maxCallDepth with hd | hd
    · exact h.query_shallow hd hq hm
    · rcases methodThrows_some hd hq hm with ⟨hk, rfl, _⟩ | ⟨hk, g, r₁, w₁, hg, rfl, rfl, _⟩
      · exact ⟨h, h.known hk⟩
      · have hb := (collectGraph_yields hg hd hk).1
        have h₁ : r₁.AsDeclared i :=
          asDeclared_keeps.collectLevels h (fun _ _ => trivial) (.start hk) (fun _ => rfl) hg
        refine ⟨?_, fun o ho => h₁.outcomes hb (Graph.mem_outcomes.mp ho)⟩
        split
        · exact h₁
        · exact h₁.remember hb

end Resolver.AsDeclared

/-- The answers of a resolver name exceptions as they are declared. -/
theorem askNext_asDeclared (i : Index) (c : Config) (w : Workspace)
    (queries : List (String × String)) (owner method : String) :
    ∀ o ∈ (askNext i c w queries owner method).1, i.AsDeclared o := by
  have hasked : (asked i c w queries).1.AsDeclared i :=
    ask_keeps (fun r _ => r.AsDeclared i) (fun h hq => (h.query hq).1) .new (Yields.of_run _ _ _)
  exact (hasked.query (Yields.of_run _ _ _)).2

end Throws

namespace Fault

/-- The exception that a docblock declares against the contract. -/
def declared? : Fault → Option String
  | annotationThrows e => some e
  | _ => none

/-- The exception that code raises against the contract. -/
def raised? : Fault → Option String
  | codeThrows e => some e
  | _ => none

end Fault

namespace Contract
open Throws
variable {i : Index}

theorem declaredThrows_asDeclared (i : Index) (m : MethodInfo) :
    ∀ o ∈ declaredThrows i m, i.AsDeclared o := by
  intro o ho
  obtain ⟨n, _, rfl⟩ := List.mem_map.mp (NameSet.mem_ofList.mp ho)
  exact i.asDeclared_declaredName n

/-- No declared class is in the set under two spellings. -/
def OncePerClass (i : Index) (s : NameSet) : Prop :=
  ∀ a ∈ s, ∀ b ∈ s, Text.same a b = true → i.contains a = true → a = b

theorem oncePerClass_of_asDeclared {s : NameSet} (h : ∀ o ∈ s, i.AsDeclared o) :
    OncePerClass i s :=
  fun a ha b hb hsame hc => (h a ha).eq_of_same (h b hb) hsame hc

theorem faults_filterMap {pick : Fault → Option String} (hr : ∀ a b, pick (.returnType a b) = none)
    (hp : ∀ n a b, pick (.paramType n a b) = none) (raised : NameSet) (m expected : MethodInfo) :
    (faults i raised m expected).filterMap pick =
      (excess i (declaredThrows i expected) (declaredThrows i m)).filterMap
        (pick ∘ .annotationThrows) ++
      (excess i (declaredThrows i expected) raised).filterMap (pick ∘ .codeThrows) := by
  have hresult : (returnFaults i m.returnType expected.returnType).filterMap pick = [] := by
    rw [returnFaults]
    split <;> simp [hr]
  have hparams {fs : List Fault} (hfs : ∀ f ∈ fs, ∃ n a b, f = .paramType n a b) :
      fs.filterMap pick = [] := by
    rw [List.filterMap_eq_nil_iff]
    intro f hf
    obtain ⟨n, a, b, rfl⟩ := hfs f hf
    exact hp n a b
  rw [faults, List.filterMap_append, List.filterMap_append, List.filterMap_append, hresult,
    List.filterMap_map, List.filterMap_map, hparams, List.append_nil, List.append_nil]
  rw [paramFaults_flatMap]
  intro f hf
  obtain ⟨x, _, rfl⟩ := List.mem_map.mp hf
  exact ⟨_, _, _, rfl⟩

theorem faults_filterMap_declared? (raised : NameSet) (m expected : MethodInfo) :
    (faults i raised m expected).filterMap Fault.declared? =
      excess i (declaredThrows i expected) (declaredThrows i m) := by
  rw [faults_filterMap (fun _ _ => rfl) (fun _ _ _ => rfl)]
  simp [Fault.declared?, Function.comp_def]

theorem faults_filterMap_raised? (raised : NameSet) (m expected : MethodInfo) :
    (faults i raised m expected).filterMap Fault.raised? =
      excess i (declaredThrows i expected) raised := by
  rw [faults_filterMap (fun _ _ => rfl) (fun _ _ _ => rfl)]
  simp [Fault.raised?, Function.comp_def]

/- Of one declared class a set leaves at most one name over. -/
theorem OncePerClass.countP_excess {found : NameSet} (h : OncePerClass i found)
    (permitted : NameSet) {k : String} (hk : i.contains k = true) :
    (excess i permitted found).countP (Text.same k) ≤ 1 := by
  have hnodup : ((excess i permitted found).filter (Text.same k)).Nodup := by
    refine ((found.increasing.filter _).filter _).imp ?_
    rintro a b hlt rfl
    exact String.lt_irrefl a hlt
  have hone : ∀ a ∈ (excess i permitted found).filter (Text.same k),
      ∀ b ∈ (excess i permitted found).filter (Text.same k), a = b := by
    intro a ha b hb
    obtain ⟨ha, hka⟩ := List.mem_filter.mp ha
    obtain ⟨hb, hkb⟩ := List.mem_filter.mp hb
    rw [Text.same, beq_iff_eq] at hka hkb
    refine h a (List.mem_filter.mp ha).1 b (List.mem_filter.mp hb).1 ?_ ?_
    · rw [Text.same, beq_iff_eq, ← hka, hkb]
    · rw [Index.contains, ← i.get?_congr hka]
      exact hk
  rw [List.countP_eq_length_filter]
  rcases hfilter : (excess i permitted found).filter (Text.same k) with _ | ⟨a, _ | ⟨b, rest⟩⟩
  · simp
  · simp
  · rw [hfilter] at hnodup hone
    have hab : a = b := hone a (by simp) b (by simp)
    simp [hab] at hnodup

/-- A set of exceptions, whether a query's answer or what a docblock declares, has one name at most
of each declared class. So a comparison has at most one violation about a declared class from the
docblock, and one from the code. -/
theorem exceptions_oncePerClass (i : Index) (c : Config) (w : Workspace) :
    (∀ queries owner method, OncePerClass i (askNext i c w queries owner method).1) ∧
    (∀ m, OncePerClass i (declaredThrows i m)) ∧
    ∀ name report, ((compareClass i c name).run w).1 = .ok report →
      ∃ subject contracts, i.get? name = some subject ∧
        (contractNames i subject).map i.get? = contracts.map some ∧
        report = (foundIn i c w subject [] (comparisons i subject contracts)).flatten ∧
        ∀ part ∈ foundIn i c w subject [] (comparisons i subject contracts),
          ∀ k, i.contains k = true →
            (part.filterMap (·.fault.declared?)).countP (Text.same k) ≤ 1 ∧
            (part.filterMap (·.fault.raised?)).countP (Text.same k) ≤ 1 := by
  have hasked (queries : List (String × String)) (owner method : String) :
      OncePerClass i (askNext i c w queries owner method).1 :=
    oncePerClass_of_asDeclared (askNext_asDeclared i c w queries owner method)
  have hdeclared (m : MethodInfo) : OncePerClass i (declaredThrows i m) :=
    oncePerClass_of_asDeclared (declaredThrows_asDeclared i m)
  refine ⟨hasked, hdeclared, ?_⟩
  intro name report h
  obtain ⟨subject, contracts, hs, hcontracts, rfl⟩ := compareClass_report h
  refine ⟨subject, contracts, hs, hcontracts, rfl, ?_⟩
  intro part hpart k hk
  obtain ⟨m, hm⟩ := List.mem_iff_getElem?.mp hpart
  rw [foundIn, List.getElem?_mapIdx, Option.map_eq_some_iff] at hm
  obtain ⟨x, -, rfl⟩ := hm
  rw [foundAfter, List.filterMap_map, List.filterMap_map]
  constructor
  · exact faults_filterMap_declared? _ x.method x.expected ▸
      (hdeclared x.method).countP_excess _ hk
  · exact faults_filterMap_raised? _ x.method x.expected ▸ (hasked _ _ _).countP_excess _ hk

/- A class whose method declares and raises one exception under two spellings. -/
namespace Sample

def spelled : MethodDecl :=
  { Throws.Sample.method "f" [Throws.Sample.raise "E", Throws.Sample.raise "e"] with
    doc := some "/** @throws E|\\e */" }

def spellingBlock (others : List TypeDecl) : NamespaceBlock :=
  ⟨none, [], [⟨.interfaceType, "I", "I", [], [], [], [], [promise], none, default⟩,
    ⟨.classType, "C", "C", [], [], [⟨"I", some "I", default⟩], [], [spelled], none, default⟩] ++
      others, default⟩

/-- The exception is declared. -/
def spellingIndex : Index :=
  ⟨(spellingBlock [⟨.classType, "E", "E", [], [], [], [], [], none, default⟩]).classes
    Throws.Sample.path, []⟩

/-- The exception is not declared. -/
def strayIndex : Index := ⟨(spellingBlock []).classes Throws.Sample.path, []⟩

def spellingWorkspace : Workspace :=
  ⟨Loader.memory [], [(Throws.Sample.path,
    some ⟨Throws.Sample.path, ⟨[spellingBlock []], true, default⟩, 1⟩)], 1, []⟩

def spellingClass : ClassInfo :=
  (spellingIndex.classes).get ⟨1, by decide⟩

/-- The method as it is found. -/
def spelledInfo : MethodInfo := MethodInfo.ofDecl ⟨"C", none⟩ Throws.Sample.path spelled

theorem contractNames_spelling :
    contractNames spellingIndex spellingClass = ["I"] := by
  have hget : spellingIndex.get? "C" = some spellingClass := by decide +kernel
  have hfind : findClass? (dropClass spellingIndex.classes spellingClass.key)
      (classKey (Index.Edge.interface "I").target) = some interfaceInfo := by decide +kernel
  have hascent : spellingIndex.ascent "C" = [.interface "I"] := by
    rw [Index.ascent, hget]
    change Index.climb (dropClass spellingIndex.classes spellingClass.key) [.interface "I"] = _
    rw [Index.climb_of_some hfind]
    change _ :: Index.climb _ [] = _
    rw [Index.climb]
  rw [contractNames]
  change spellingIndex.interfaces "C" ++ [] = _
  rw [Index.interfaces, hascent]
  decide +kernel

theorem checked_spelling : ∃ report,
    ((compareClass spellingIndex {} "C").run spellingWorkspace).1 = .ok report := by
  have hget : spellingIndex.get? "C" = some spellingClass := by decide +kernel
  rw [checked_iff_contracts hget, contractNames_spelling]
  decide +kernel

end Sample

theorem exceptions_oncePerClass_sample : ∃ report,
    ((compareClass Sample.spellingIndex {} "C").run Sample.spellingWorkspace).1 = .ok report ∧
    Sample.spellingIndex.contains "e" = true ∧
    (askNext Sample.spellingIndex {} Sample.spellingWorkspace [] "C" "f").1 = .ofList ["E"] ∧
    declaredThrows Sample.spellingIndex Sample.spelledInfo = .ofList ["E"] ∧
    ∀ part ∈ foundIn Sample.spellingIndex {} Sample.spellingWorkspace Sample.spellingClass []
        (comparisons Sample.spellingIndex Sample.spellingClass [Sample.interfaceInfo]),
      (part.filterMap (·.fault.raised?)).countP (Text.same "e") ≤ 1 := by
  obtain ⟨report, h⟩ := Sample.checked_spelling
  have hget : Sample.spellingIndex.get? "C" = some Sample.spellingClass := by decide +kernel
  have hdeclared : Sample.spellingIndex.contains "e" = true := by decide +kernel
  obtain ⟨-, -, hreport⟩ :=
    exceptions_oncePerClass Sample.spellingIndex {} Sample.spellingWorkspace
  obtain ⟨subject, contracts, hs, hcontracts, -, hparts⟩ := hreport "C" report h
  cases hget.symm.trans hs
  have hone : contracts = [Sample.interfaceInfo] := by
    have hnames : (contractNames Sample.spellingIndex Sample.spellingClass).map
        Sample.spellingIndex.get? = [Sample.interfaceInfo].map some := by
      rw [Sample.contractNames_spelling]
      decide +kernel
    rw [hnames] at hcontracts
    exact (List.map_injective_iff.mpr (Option.some_injective _) hcontracts).symm
  subst hone
  refine ⟨report, h, hdeclared, by decide +kernel, by decide +kernel, ?_⟩
  intro part hpart
  exact (hparts part hpart "e" hdeclared).2

/-- A class that is not declared can be in the sets twice, in two spellings. -/
theorem undeclared_exception_twice :
    Text.same "E" "e" = true ∧
    (askNext Sample.strayIndex {} Sample.spellingWorkspace [] "C" "f").1 = .ofList ["E", "e"] ∧
    declaredThrows Sample.strayIndex Sample.spelledInfo = .ofList ["E", "e"] := by
  decide +kernel

end Contract

end ContractAudit
