import ContractAudit.Proofs.Memo
import ContractAudit.Proofs.Mirror

/-! The report on a class. Main statement: it has one part for each comparison of a method with one
that a contract binds it to, and a part has one violation for each exception that is declared or
raised and not permitted, one for a return type that is no subtype, one for each parameter that
accepts too little, and nothing else. -/
namespace ContractAudit

open Source

namespace Contract
open Throws
variable {i : Index} {c : Config} {w w₁ w' : Workspace} {r r' : Resolver} {subject : ClassInfo}
  {name : String}

/-- A method of a class beside the contract's method whose place it takes. -/
structure Comparison where
  contract : ClassInfo
  method : MethodInfo
  expected : MethodInfo
deriving DecidableEq

/-- The comparisons of a class under these contracts, in order. -/
def comparisons (i : Index) (subject : ClassInfo) (contracts : List ClassInfo) : List Comparison :=
  contracts.flatMap fun contract => (pairs i subject contract).map fun x => ⟨contract, x.1, x.2⟩

/-- The exceptions that the method of a comparison raises, as found after these comparisons. -/
def raisedAfter (i : Index) (c : Config) (w : Workspace) (subject : ClassInfo)
    (before : List Comparison) (x : Comparison) : NameSet :=
  (askNext i c w (before.map fun x => (subject.name, x.method.name)) subject.name x.method.name).1

/-- What a comparison finds after these. -/
def foundAfter (i : Index) (c : Config) (w : Workspace) (subject : ClassInfo)
    (before : List Comparison) (x : Comparison) : List Violation :=
  (faults i (raisedAfter i c w subject before x) x.method x.expected).map
    (⟨subject.name, x.method.name, x.contract.name, ·⟩)

/-- What each of these comparisons finds, after others. -/
def foundIn (i : Index) (c : Config) (w : Workspace) (subject : ClassInfo)
    (before xs : List Comparison) : List (List Violation) :=
  xs.mapIdx fun m x => foundAfter i c w subject (before ++ xs.take m) x

theorem foundIn_cons (before xs : List Comparison) (x : Comparison) :
    foundIn i c w subject before (x :: xs) =
      foundAfter i c w subject before x :: foundIn i c w subject (before ++ [x]) xs := by
  simp [foundIn, List.mapIdx_cons]

theorem foundIn_append (before xs ys : List Comparison) :
    foundIn i c w subject before (xs ++ ys) =
      foundIn i c w subject before xs ++ foundIn i c w subject (before ++ xs) ys := by
  induction xs generalizing before with
  | nil => simp [foundIn]
  | cons x xs ih =>
    rw [List.cons_append, foundIn_cons, foundIn_cons, ih, List.append_assoc]
    rfl

/-- A resolver after the queries of these comparisons, and a workspace that differs at most in its
log from the one then. -/
structure After (i : Index) (c : Config) (w : Workspace) (subject : ClassInfo)
    (before : List Comparison) (r : Resolver) (w₁ : Workspace) : Prop where
  resolver : r = (asked i c w (before.map fun x => (subject.name, x.method.name))).1
  workspace : SameButLog (asked i c w (before.map fun x => (subject.name, x.method.name))).2 w₁

theorem asked_append_one (queries : List (String × String)) (owner method : String) :
    asked i c w (queries ++ [(owner, method)]) =
      ((((methodThrows i c owner method).run (asked i c w queries).1).run
        (asked i c w queries).2).1.2,
      (((methodThrows i c owner method).run (asked i c w queries).1).run
        (asked i c w queries).2).2) := by
  have happend : ask i c (queries ++ [(owner, method)]) = do
      let as ← ask i c queries
      let a ← methodThrows i c owner method
      return as ++ [a] := by
    simp [ask, List.mapM_append]
  rw [asked, happend]
  rfl

/- What was told before a query changes neither its answer nor what the resolver keeps. -/
theorem methodThrows_sameButLog {owner method : String} {a : NameSet} (hlog : SameButLog w w₁)
    (h : Yields (methodThrows i c owner method) r w₁ a r' w') :
    ∃ w'', Yields (methodThrows i c owner method) r w a r' w'' ∧ SameButLog w'' w' := by
  obtain ⟨hsame, hlog⟩ :=
    methodThrows_follows sameButLog_tallies (Index.respells_id i) c owner method r _ _ hlog
  rw [h] at hsame hlog
  refine ⟨_, ?_, hlog⟩
  exact Prod.ext hsame.symm rfl

theorem compareMethod_after {before : List Comparison} {x : Comparison} {found : List Violation}
    (ha : After i c w subject before r w₁)
    (h : Yields (compareMethod i c subject x.contract x.method x.expected) r w₁ found r' w') :
    found = foundAfter i c w subject before x ∧ After i c w subject (before ++ [x]) r' w' := by
  obtain ⟨_, r₂, w₂, htell, hrest⟩ := h.bind_inv
  cases htell
  obtain ⟨raised, r₃, w₃, hthrows, hlast⟩ := hrest.bind_inv
  obtain ⟨rfl, rfl, rfl⟩ := yields_pure.mp hlast
  obtain ⟨w₄, hasked, hlog⟩ := methodThrows_sameButLog (ha.workspace.told _) hthrows
  rw [ha.resolver] at hasked
  refine ⟨?_, ?_, ?_⟩
  · rw [foundAfter, raisedAfter, askNext, hasked]
  · rw [List.map_append, List.map_singleton, asked_append_one, hasked]
  · rw [List.map_append, List.map_singleton, asked_append_one, hasked]
    exact hlog

theorem comparePairs_after {before : List Comparison} {contract : ClassInfo}
    {ps : List (MethodInfo × MethodInfo)} {parts : List (List Violation)}
    (ha : After i c w subject before r w₁)
    (h : Yields (ps.mapM fun (m, expected) => compareMethod i c subject contract m expected) r w₁
      parts r' w') :
    parts = foundIn i c w subject before (ps.map fun x => ⟨contract, x.1, x.2⟩) ∧
      After i c w subject (before ++ ps.map fun x => ⟨contract, x.1, x.2⟩) r' w' := by
  induction ps generalizing before r w₁ parts with
  | nil =>
    obtain ⟨rfl, rfl, rfl⟩ := yields_pure.mp h
    exact ⟨rfl, by simpa using ha⟩
  | cons p ps ih =>
    rw [List.mapM_cons] at h
    obtain ⟨part, r₃, w₃, hpart, hrest⟩ := h.bind_inv
    obtain ⟨parts', r₄, w₄, hparts, hlast⟩ := hrest.bind_inv
    obtain ⟨rfl, rfl, rfl⟩ := yields_pure.mp hlast
    obtain ⟨rfl, ha'⟩ := compareMethod_after (x := ⟨contract, p.1, p.2⟩) ha hpart
    obtain ⟨rfl, ha''⟩ := ih ha' hparts
    rw [List.map_cons, foundIn_cons]
    exact ⟨rfl, by simpa using ha''⟩

theorem compareAll_after {before : List Comparison} {contracts : List ClassInfo}
    {parts : List (List Violation)} (ha : After i c w subject before r w₁)
    (h : Yields (contracts.mapM (compareContract i c subject)) r w₁ parts r' w') :
    parts.flatten = (foundIn i c w subject before (comparisons i subject contracts)).flatten := by
  induction contracts generalizing before r w₁ parts with
  | nil =>
    obtain ⟨rfl, rfl, rfl⟩ := yields_pure.mp h
    rfl
  | cons contract contracts ih =>
    rw [List.mapM_cons] at h
    obtain ⟨part, r₃, w₃, hpart, hrest⟩ := h.bind_inv
    obtain ⟨parts', r₄, w₄, hparts', hlast⟩ := hrest.bind_inv
    obtain ⟨rfl, rfl, rfl⟩ := yields_pure.mp hlast
    obtain ⟨found, r₅, w₅, hfound, hflat⟩ := hpart.bind_inv
    obtain ⟨rfl, rfl, rfl⟩ := yields_pure.mp hflat
    obtain ⟨rfl, ha'⟩ := comparePairs_after ha hfound
    rw [comparisons, List.flatMap_cons, foundIn_append, List.flatten_cons, List.flatten_append,
      ih ha' hparts']
    rfl

/-- The report on a class that is checked. -/
theorem compareClass_report {report : List Violation}
    (h : ((compareClass i c name).run w).1 = .ok report) :
    ∃ subject contracts, i.get? name = some subject ∧
      (contractNames i subject).map i.get? = contracts.map some ∧
      report = (foundIn i c w subject [] (comparisons i subject contracts)).flatten := by
  cases hs : i.get? name with
  | none => cases (compareClass_error (load_none hs)).symm.trans h
  | some subject =>
    cases hcs : contracts i subject with
    | error e => cases (compareClass_error (load_error hs hcs)).symm.trans h
    | ok cs =>
      cases (compareClass_ok (load_ok hs hcs)).symm.trans h
      have hstart : After i c w subject [] .new w := ⟨rfl, w.events, rfl⟩
      refine ⟨subject, cs, rfl, contracts_ok hcs, ?_⟩
      exact compareAll_after hstart (Yields.of_run _ _ _)

/-- A method permits an exception: its docblock declares it or a class above it. -/
def Permits (i : Index) (m : MethodInfo) (exception : String) : Prop :=
  ∃ a ∈ declaredThrows i m, i.Above (classKey exception) (classKey a)

theorem mem_excess {expected : MethodInfo} {found : NameSet} {e : String} :
    e ∈ excess i (declaredThrows i expected) found ↔ e ∈ found ∧ ¬ Permits i expected e := by
  have hpermitted : isPermitted i (declaredThrows i expected) e = true ↔ Permits i expected e := by
    rw [isPermitted, List.any_eq_true]
    simp only [Index.isSubtype_iff]
    rfl
  rw [excess, List.mem_filter, ← hpermitted, Bool.not_eq_true', Bool.not_eq_true]
  rfl

theorem count_excess (permitted found : NameSet) (e : String) :
    (excess i permitted found).count e = if e ∈ excess i permitted found then 1 else 0 := by
  have hnodup : (excess i permitted found).Nodup := by
    refine List.Nodup.filter _ (found.increasing.imp ?_)
    rintro a b hlt rfl
    exact String.lt_irrefl a hlt
  split
  · next h => exact List.count_eq_one_of_mem hnodup h
  · next h => exact List.count_eq_zero.mpr h

/-- The faults of a method that raises these exceptions, beside the contract's method: one for each
exception declared or raised that is not permitted, one for a return type that is no subtype, and
one for each place where the contract's parameter has a type that is no subtype of the method's. -/
structure Exact (i : Index) (m expected : MethodInfo) (raised : NameSet) (fs : List Fault) :
    Prop where
  declared : ∀ e, (e ∈ declaredThrows i m ∧ ¬ Permits i expected e →
    fs.count (.annotationThrows e) = 1) ∧
    (¬ (e ∈ declaredThrows i m ∧ ¬ Permits i expected e) → fs.count (.annotationThrows e) = 0)
  raised : ∀ e, (e ∈ raised ∧ ¬ Permits i expected e → fs.count (.codeThrows e) = 1) ∧
    (¬ (e ∈ raised ∧ ¬ Permits i expected e) → fs.count (.codeThrows e) = 0)
  result : fs.filter (·.label = "ReturnCovariance") =
    if Signature.declaredSubtype i m.returnType expected.returnType then []
    else [.returnType (Signature.describe m.returnType) (Signature.describe expected.returnType)]
  params : fs.filter (·.label = "ParameterContravariance") =
    ((m.params.zip expected.params).filter fun (p, q) =>
      !Signature.declaredSubtype i q.type p.type).map fun (p, q) =>
        .paramType p.name (Signature.describe p.type) (Signature.describe q.type)

theorem paramFaults_flatMap (places : List (ParamInfo × ParamInfo)) :
    (places.flatMap fun (p, q) => paramFaults i p q) =
      (places.filter fun (p, q) => !Signature.declaredSubtype i q.type p.type).map fun (p, q) =>
        .paramType p.name (Signature.describe p.type) (Signature.describe q.type) := by
  induction places with
  | nil => rfl
  | cons place places ih =>
    obtain ⟨p, q⟩ := place
    rw [List.flatMap_cons, ih, List.filter_cons]
    cases h : Signature.declaredSubtype i q.type p.type <;> simp [paramFaults, h]

theorem count_excess_map {expected : MethodInfo} {found : NameSet} {f : String → Fault}
    (hf : Function.Injective f) (e : String) :
    (e ∈ found ∧ ¬ Permits i expected e →
      ((excess i (declaredThrows i expected) found).map f).count (f e) = 1) ∧
    (¬ (e ∈ found ∧ ¬ Permits i expected e) →
      ((excess i (declaredThrows i expected) found).map f).count (f e) = 0) := by
  rw [List.count_map_of_injective _ f hf, count_excess, ← mem_excess]
  exact ⟨fun h => if_pos h, fun h => if_neg h⟩

theorem count_faults {raised : NameSet} {m expected : MethodInfo} {f : Fault}
    (hr : ∀ a b, f ≠ .returnType a b) (hp : ∀ n a b, f ≠ .paramType n a b) :
    (faults i raised m expected).count f =
      ((excess i (declaredThrows i expected) (declaredThrows i m)).map .annotationThrows).count f +
      ((excess i (declaredThrows i expected) raised).map .codeThrows).count f := by
  have hresult : f ∉ returnFaults i m.returnType expected.returnType := by
    rw [returnFaults]
    split <;> simp [hr]
  have hparams : f ∉ (m.params.zip expected.params).flatMap fun (p, q) => paramFaults i p q := by
    rw [paramFaults_flatMap, List.mem_map]
    rintro ⟨place, _, heq⟩
    exact hp _ _ _ heq.symm
  rw [faults, List.count_append, List.count_append, List.count_append,
    List.count_eq_zero.mpr hresult, List.count_eq_zero.mpr hparams, Nat.add_zero]

/- Each of the four kinds of fault comes from one of the four lists alone. -/
theorem faults_exact (raised : NameSet) (m expected : MethodInfo) :
    Exact i m expected raised (faults i raised m expected) := by
  constructor
  · intro e
    have hother : Fault.annotationThrows e ∉
        (excess i (declaredThrows i expected) raised).map .codeThrows := by simp
    rw [count_faults (by simp) (by simp), List.count_eq_zero.mpr hother, Nat.add_zero]
    exact count_excess_map (fun a b heq => Fault.annotationThrows.inj heq) e
  · intro e
    have hother : Fault.codeThrows e ∉
        (excess i (declaredThrows i expected) (declaredThrows i m)).map .annotationThrows := by simp
    rw [count_faults (by simp) (by simp), List.count_eq_zero.mpr hother, Nat.zero_add]
    exact count_excess_map (fun a b heq => Fault.codeThrows.inj heq) e
  · rw [faults, paramFaults_flatMap, returnFaults]
    split <;> simp [List.filter_map, Function.comp_def, Fault.label]
  · rw [faults, paramFaults_flatMap, returnFaults]
    split <;> simp [List.filter_map, Function.comp_def, Fault.label]

/-- A contract binds a method of a class: the contract's method is not private, nor a constructor
with a body, and the class has for its name a method that is declared elsewhere. -/
structure Binds (i : Index) (subject : ClassInfo) (x : Comparison) : Prop where
  listed : x.expected ∈ i.methods x.contract.name
  visible : x.expected.visibility ≠ .privately
  constructors : Text.same x.expected.name "__construct" = true → x.expected.isAbstract = true
  found : i.method? subject.name x.expected.name = some x.method
  elsewhere : Text.same x.method.declaringClass x.expected.declaringClass = false

theorem mem_pairs {x : Comparison} :
    (x.method, x.expected) ∈ pairs i subject x.contract ↔ Binds i subject x := by
  have hcomparable : isComparable x.expected = true ↔ x.expected.visibility ≠ .privately ∧
      (Text.same x.expected.name "__construct" = true → x.expected.isAbstract = true) := by
    rw [isComparable]
    cases Text.same x.expected.name "__construct" <;> simp
  have hover : overriding? i subject x.expected = some x.method ↔
      i.method? subject.name x.expected.name = some x.method ∧
        Text.same x.method.declaringClass x.expected.declaringClass = false := by
    rw [overriding?, Option.filter_eq_some_iff, Bool.not_eq_true']
  simp only [pairs, List.mem_filterMap, List.mem_filter, Option.map_eq_some_iff, Prod.mk.injEq]
  constructor
  · rintro ⟨k, ⟨hk, hc⟩, o, ho, rfl, rfl⟩
    exact ⟨hk, (hcomparable.mp hc).1, (hcomparable.mp hc).2, (hover.mp ho).1, (hover.mp ho).2⟩
  · intro h
    exact ⟨x.expected, ⟨h.listed, hcomparable.mpr ⟨h.visible, h.constructors⟩⟩, x.method,
      hover.mpr ⟨h.found, h.elsewhere⟩, rfl, rfl⟩

theorem method?_name {owner n : String} {m : MethodInfo} (h : i.method? owner n = some m) :
    Text.lower m.name = Text.lower n := by
  obtain ⟨d, _, hm⟩ := Index.mem_of_method? h
  simpa [Text.same] using List.find?_some hm

/- Of a contract no two methods have one name, so neither have those that take their places. -/
theorem pairs_pairwise (contract : ClassInfo) :
    (pairs i subject contract).Pairwise fun x y => x.1.name ≠ y.1.name := by
  have hmethods : (i.methods contract.name).Pairwise fun m n => Text.same m.name n.name = false :=
    distinct_pairwise _ _
  rw [pairs, List.pairwise_filterMap]
  refine (hmethods.filter _).imp ?_
  intro m n hne a ha b hb heq
  obtain ⟨o, ho, rfl⟩ := Option.map_eq_some_iff.mp ha
  obtain ⟨o', ho', rfl⟩ := Option.map_eq_some_iff.mp hb
  have hm := method?_name (Option.filter_eq_some_iff.mp ho).1
  have hn := method?_name (Option.filter_eq_some_iff.mp ho').1
  have hsame : Text.same m.name n.name = true := by
    rw [Text.same, beq_iff_eq, ← hm, ← hn, heq]
  rw [hne] at hsame
  cases hsame

/- Each entry of the list of contracts has its own comparisons, each once. -/
theorem count_comparisons (contracts : List ClassInfo) (x : Comparison) :
    (Binds i subject x → (comparisons i subject contracts).count x = contracts.count x.contract) ∧
      (¬ Binds i subject x → x ∉ comparisons i subject contracts) := by
  have hmem (contract : ClassInfo) :
      x ∈ (pairs i subject contract).map (fun y => Comparison.mk contract y.1 y.2) ↔
        contract = x.contract ∧ Binds i subject x := by
    rw [← mem_pairs, List.mem_map]
    constructor
    · rintro ⟨y, hy, rfl⟩
      exact ⟨rfl, hy⟩
    · rintro ⟨rfl, hx⟩
      exact ⟨_, hx, rfl⟩
  constructor
  · intro hx
    induction contracts with
    | nil => rfl
    | cons contract contracts ih =>
      rw [comparisons, List.flatMap_cons, List.count_append, ← comparisons, ih, List.count_cons,
        Nat.add_comm]
      congr 1
      have hnodup : ((pairs i subject contract).map
          fun y => Comparison.mk contract y.1 y.2).Nodup := by
        refine List.pairwise_map.mpr ((pairs_pairwise contract).imp ?_)
        intro y z hne heq
        exact hne (congrArg (·.method.name) heq)
      by_cases hc : contract = x.contract
      · rw [List.count_eq_one_of_mem hnodup ((hmem _).mpr ⟨hc, hx⟩), if_pos (beq_iff_eq.mpr hc)]
      · rw [List.count_eq_zero.mpr fun h => hc ((hmem _).mp h).1, if_neg (by simpa using hc)]
  · intro hx hin
    obtain ⟨contract, _, h⟩ := List.mem_flatMap.mp hin
    exact hx ((hmem contract).mp h).2

theorem get?_name {n : String} {d : ClassInfo} (h : i.get? n = some d) :
    i.get? d.name = some d := by
  rw [Index.get?, Index.classKey_of_get? h]
  exact h

/- Contracts that are found in the table have different names. -/
theorem comparisons_pairwise {contracts : List ClassInfo} (hc : contracts.Nodup)
    (hfound : ∀ d ∈ contracts, i.get? d.name = some d) :
    (comparisons i subject contracts).Pairwise fun x y =>
      ¬ (x.contract.name = y.contract.name ∧ x.method.name = y.method.name) := by
  rw [comparisons, List.pairwise_flatMap]
  constructor
  · intro d _
    refine List.pairwise_map.mpr ((pairs_pairwise d).imp ?_)
    rintro x y hne ⟨_, heq⟩
    exact hne heq
  · refine hc.imp_of_mem ?_
    rintro d d' hd hd' hne x hx y hy ⟨heq, _⟩
    obtain ⟨_, _, rfl⟩ := List.mem_map.mp hx
    obtain ⟨_, _, rfl⟩ := List.mem_map.mp hy
    have hsame := hfound d hd
    rw [show d.name = d'.name from heq, hfound d' hd'] at hsame
    exact hne (Option.some.inj hsame).symm

theorem foundIn_getElem? {xs : List Comparison} {m : Nat} {x : Comparison} (hx : xs[m]? = some x) :
    (foundIn i c w subject [] xs)[m]? = some (foundAfter i c w subject (xs.take m) x) := by
  rw [foundIn, List.getElem?_mapIdx, hx]
  rfl

/- A violation is found by one of the comparisons. -/
theorem mem_foundIn {before xs : List Comparison} {v : Violation}
    (h : v ∈ (foundIn i c w subject before xs).flatten) :
    ∃ x ∈ xs, ∃ earlier, v ∈ foundAfter i c w subject earlier x := by
  obtain ⟨part, hpart, hv⟩ := List.mem_flatten.mp h
  obtain ⟨m, hm⟩ := List.mem_iff_getElem?.mp hpart
  rw [foundIn, List.getElem?_mapIdx, Option.map_eq_some_iff] at hm
  obtain ⟨x, hx, rfl⟩ := hm
  exact ⟨x, List.mem_of_getElem? hx, _, hv⟩

theorem names_of_mem_foundAfter {before : List Comparison} {x : Comparison} {v : Violation}
    (h : v ∈ foundAfter i c w subject before x) :
    v.methodName = x.method.name ∧ v.contractName = x.contract.name := by
  obtain ⟨f, _, rfl⟩ := List.mem_map.mp h
  exact ⟨rfl, rfl⟩

/- Where no two comparisons name one contract and one method, a violation is counted in its own part
alone. -/
theorem count_report {xs : List Comparison} {m : Nat} {x : Comparison}
    (hxs : xs.Pairwise fun x y =>
      ¬ (x.contract.name = y.contract.name ∧ x.method.name = y.method.name))
    (hx : xs[m]? = some x) (f : Fault) :
    (foundIn i c w subject [] xs).flatten.count ⟨subject.name, x.method.name, x.contract.name, f⟩ =
      (faults i (raisedAfter i c w subject (xs.take m) x) x.method x.expected).count f := by
  obtain ⟨hlt, rfl⟩ := List.getElem?_eq_some_iff.mp hx
  have hsplit : xs = xs.take m ++ xs[m] :: xs.drop (m + 1) := by
    rw [← List.drop_eq_getElem_cons hlt, List.take_append_drop]
  rw [hsplit, List.pairwise_append, List.pairwise_cons] at hxs
  obtain ⟨_, ⟨hafter, _⟩, hbefore⟩ := hxs
  have hnone (before ys : List Comparison) (hys : ∀ y ∈ ys,
      ¬ (y.contract.name = xs[m].contract.name ∧ y.method.name = xs[m].method.name)) :
      (foundIn i c w subject before ys).flatten.count
        ⟨subject.name, xs[m].method.name, xs[m].contract.name, f⟩ = 0 := by
    rw [List.count_eq_zero]
    intro h
    obtain ⟨y, hy, _, hfound⟩ := mem_foundIn h
    obtain ⟨hmethod, hcontract⟩ := names_of_mem_foundAfter hfound
    exact hys y hy ⟨hcontract.symm, hmethod.symm⟩
  have hinj : Function.Injective (Violation.mk subject.name xs[m].method.name
      xs[m].contract.name) := fun a b heq => (Violation.mk.inj heq).2.2.2
  have hfound : foundIn i c w subject [] xs = foundIn i c w subject [] (xs.take m) ++
      foundAfter i c w subject (xs.take m) xs[m] ::
        foundIn i c w subject (xs.take m ++ [xs[m]]) (xs.drop (m + 1)) := by
    conv_lhs => rw [hsplit, foundIn_append, foundIn_cons]
    rfl
  rw [hfound, List.flatten_append, List.flatten_cons, List.count_append, List.count_append,
    hnone _ _ fun y hy => hbefore y hy _ List.mem_cons_self,
    hnone _ _ fun y hy heq => hafter y hy ⟨heq.1.symm, heq.2.symm⟩, Nat.zero_add, Nat.add_zero,
    foundAfter, List.count_map_of_injective _ _ hinj]

/-- The report on a class that is checked has a part for each comparison, in order, and a part tells
exactly the faults of its method. A contract is compared once for each of its entries, in all the
methods that it binds. Where no contract is listed twice, what the report tells of a method and a
contract is in their part alone. -/
theorem report_exact (i : Index) (c : Config) (name : String) (w : Workspace)
    {report : List Violation} (h : ((compareClass i c name).run w).1 = .ok report) :
    ∃ (subject : ClassInfo) (contracts : List ClassInfo) (parts : List (List Violation)),
      i.get? name = some subject ∧
      (contractNames i subject).map i.get? = contracts.map some ∧
      report = parts.flatten ∧ parts.length = (comparisons i subject contracts).length ∧
      (∀ m x, (comparisons i subject contracts)[m]? = some x → ∃ fs,
        parts[m]? = some (fs.map (⟨subject.name, x.method.name, x.contract.name, ·⟩)) ∧
        Exact i x.method x.expected
          (raisedAfter i c w subject ((comparisons i subject contracts).take m) x) fs ∧
        (contracts.Nodup → ∀ f,
          report.count ⟨subject.name, x.method.name, x.contract.name, f⟩ = fs.count f)) ∧
      ∀ x, (Binds i subject x →
          (comparisons i subject contracts).count x = contracts.count x.contract) ∧
        (¬ Binds i subject x → x ∉ comparisons i subject contracts) := by
  obtain ⟨subject, contracts, hs, hcontracts, rfl⟩ := compareClass_report h
  refine ⟨subject, contracts, _, hs, hcontracts, rfl, List.length_mapIdx, ?_,
    count_comparisons contracts⟩
  intro m x hx
  refine ⟨_, foundIn_getElem? hx, faults_exact _ _ _, ?_⟩
  intro hnodup f
  have hfound : ∀ d ∈ contracts, i.get? d.name = some d := by
    intro d hd
    have hmem : some d ∈ (contractNames i subject).map i.get? := by
      rw [hcontracts]
      exact List.mem_map_of_mem hd
    obtain ⟨n, _, hn⟩ := List.mem_map.mp hmem
    exact get?_name hn
  exact count_report (comparisons_pairwise hnodup hfound) hx f

/- A class whose method raises an exception, where its interface permits none. -/
namespace Sample

def promise : MethodDecl := ⟨"f", [], none, [], none, false, none, default⟩

def strictBlock : NamespaceBlock :=
  ⟨none, [], [⟨.interfaceType, "I", "I", [], [], [], [], [promise], none, default⟩,
    ⟨.classType, "C", "C", [], [], [⟨"I", some "I", default⟩], [],
      [Throws.Sample.method "f" [Throws.Sample.raise "E"]], none, default⟩], default⟩

def strictIndex : Index := ⟨strictBlock.classes Throws.Sample.path, []⟩

def strictWorkspace : Workspace :=
  ⟨Loader.memory [], [(Throws.Sample.path,
    some ⟨Throws.Sample.path, ⟨[strictBlock], true, default⟩, 1⟩)], 1, []⟩

/-- The interface as it is found. -/
def interfaceInfo : ClassInfo :=
  (strictBlock.classes Throws.Sample.path).head (by decide)

/-- The class as it is found. -/
def classInfo : ClassInfo := (strictBlock.classes Throws.Sample.path).getLast (by decide)

/-- The one comparison there is. -/
def comparison : Comparison :=
  ⟨interfaceInfo, classInfo.methods.head (by decide +kernel),
    interfaceInfo.methods.head (by decide +kernel)⟩

theorem contractNames_strict : contractNames strictIndex classInfo = ["I"] := by
  have hget : strictIndex.get? "C" = some classInfo := by decide +kernel
  have hfind : findClass? (dropClass strictIndex.classes classInfo.key)
      (classKey (Index.Edge.interface "I").target) = some interfaceInfo := by decide +kernel
  have hascent : strictIndex.ascent "C" = [.interface "I"] := by
    rw [Index.ascent, hget]
    change Index.climb (dropClass strictIndex.classes classInfo.key) [.interface "I"] = _
    rw [Index.climb_of_some hfind]
    change _ :: Index.climb _ [] = _
    rw [Index.climb]
  rw [contractNames]
  change strictIndex.interfaces "C" ++ [] = _
  rw [Index.interfaces, hascent]
  decide +kernel

theorem comparisons_strict :
    comparisons strictIndex classInfo [interfaceInfo] = [comparison] := by
  have hget : strictIndex.get? "I" = some interfaceInfo := by decide +kernel
  have hascent : strictIndex.ascent "I" = [] := by
    rw [Index.ascent, hget]
    change Index.climb (dropClass strictIndex.classes interfaceInfo.key) [] = _
    rw [Index.climb]
  have hdeclarations : strictIndex.declarations "I" = [interfaceInfo] := by
    rw [Index.declarations, Index.interfaces, hascent]
    decide +kernel
  have hpairs : pairs strictIndex classInfo interfaceInfo =
      [(comparison.method, comparison.expected)] := by
    rw [pairs]
    change ((strictIndex.methods "I").filter isComparable).filterMap _ = _
    rw [Index.methods, hdeclarations]
    decide +kernel
  rw [comparisons, List.flatMap_singleton, hpairs]
  rfl

end Sample

theorem report_exact_sample : ∃ report,
    ((compareClass Sample.strictIndex {} "C").run Sample.strictWorkspace).1 = .ok report ∧
    report.count ⟨"C", "f", "I", .codeThrows "E"⟩ = 1 := by
  have hget : Sample.strictIndex.get? "C" = some Sample.classInfo := by decide +kernel
  have hok : ∃ report, ((compareClass Sample.strictIndex {} "C").run
      Sample.strictWorkspace).1 = .ok report := by
    rw [checked_iff_contracts hget, Sample.contractNames_strict]
    decide +kernel
  obtain ⟨report, h⟩ := hok
  obtain ⟨subject, contracts, parts, hs, hcontracts, -, -, hparts, -⟩ := report_exact _ _ _ _ h
  cases hget.symm.trans hs
  have hone : contracts = [Sample.interfaceInfo] := by
    have hnames : (contractNames Sample.strictIndex Sample.classInfo).map Sample.strictIndex.get? =
        [Sample.interfaceInfo].map some := by
      rw [Sample.contractNames_strict]
      decide +kernel
    rw [hnames] at hcontracts
    exact (List.map_injective_iff.mpr (Option.some_injective _) hcontracts).symm
  subst hone
  rw [Sample.comparisons_strict] at hparts
  obtain ⟨fs, -, hexact, hcount⟩ := hparts 0 Sample.comparison rfl
  have hraised : "E" ∈ raisedAfter Sample.strictIndex {} Sample.strictWorkspace Sample.classInfo
      (List.take 0 [Sample.comparison]) Sample.comparison := by decide +kernel
  have hpermits : ¬ Permits Sample.strictIndex Sample.comparison.expected "E" := by
    have hnothing : declaredThrows Sample.strictIndex Sample.comparison.expected = ∅ := by
      decide +kernel
    rintro ⟨a, ha, _⟩
    rw [hnothing] at ha
    exact NameSet.not_mem_empty a ha
  refine ⟨report, h, ?_⟩
  exact (hcount (List.nodup_singleton _) (.codeThrows "E")).trans
    ((hexact.raised "E").1 ⟨hraised, hpermits⟩)

end Contract

end ContractAudit
