import ContractAudit.Proofs.FrameKey
import ContractAudit.Proofs.Levels
import ContractAudit.Proofs.Origins
import ContractAudit.Proofs.Overrides

/-! Late binding. Main statement: whatever calls lead to a body, `$this` is bound in it to the class
that has the body or to a class below it. -/
namespace ContractAudit

namespace Index
variable {i : Index}

/-- The class of a method that is found lies at or above the class it is looked up in. -/
theorem Built.above_declaringClass (hi : i.Built) {owner name : String} {m : MethodInfo}
    (h : i.method? owner name = some m) : i.Above (classKey owner) (classKey m.declaringClass) := by
  obtain ⟨k, d, hk, hd, hm⟩ := declaredAbove_of_method? h
  have hkey : classKey d.name = k := by
    rw [← d.key_eq]
    exact findClass?_key hd
  rw [hi.declaring d (List.mem_of_find?_eq_some hd) m hm, hkey]
  exact hk

theorem above_parent {name p : String} (h : (i.get? name).bind (·.parent) = some p) :
    i.Above (classKey name) (classKey p) := by
  obtain ⟨d, hd, hp⟩ := Option.bind_eq_some_iff.mp h
  have hup : i.Up (classKey name) (classKey p) :=
    ⟨d, hd, .parent p, by simp [edgesOf, hp], rfl⟩
  exact .single hup

end Index

namespace Throws
variable {i : Index} {c : Config} {r r' : Resolver} {w w' : Workspace}

/-- `$this` is bound to the class that has the body or to a class below it. -/
def Frame.Bound (i : Index) (f : Frame) : Prop :=
  i.isSubtype f.thisClass f.method.declaringClass = true

/-- The class of `$this` lies at or below the class of the body, and that one below its parent. -/
structure Setting.Bound (s : Setting) : Prop where
  self : s.index.Above (classKey s.thisClass) (classKey s.selfClass)
  parent : ∀ p ∈ s.parent, s.index.Above (classKey s.selfClass) (classKey p)

theorem Frame.Bound.setting {f : Frame} (h : f.Bound i) : (settingOf i c f).Bound where
  self := Index.isSubtype_iff.mp h
  parent _ hp := Index.above_parent hp

/- A named class is bound itself. Only `self` and `parent` are looked up elsewhere than where
`$this` is bound. -/
theorem Setting.Bound.boundBy {s : Setting} (hs : s.Bound) {of : ClassRef} {k : String}
    (h : s.classOf of = some k) : s.index.Above (classKey (boundBy s of k)) (classKey k) := by
  cases of with
  | named n => exact .refl
  | selfRef =>
    cases h
    exact hs.self
  | staticRef =>
    cases h
    exact .refl
  | parentRef => exact hs.self.trans (hs.parent k h)
  | dynamic => cases h
  | anonymous => cases h

theorem Setting.Bound.callees {s : Setting} (hs : s.Bound) (k : Known) (step : Step) :
    ∀ t ∈ step.callees s k, s.index.Above (classKey t.thisClass) (classKey t.lookupClass) := by
  intro t ht
  unfold Step.callees at ht
  split at ht
  · obtain ⟨_, _, rfl⟩ := List.mem_map.mp ht
    exact .refl
  · obtain ⟨_, hof, rfl⟩ := List.mem_map.mp ht
    exact hs.boundBy (Option.mem_toList.mp hof)
  · cases ht

theorem Setting.Bound.summarize {s : Setting} (hs : s.Bound) (params : List ParamInfo) (b : Block) :
    ∀ site ∈ (summarize s params b).1.calls,
      s.index.Above (classKey site.thisClass) (classKey site.lookupClass) := by
  intro site hsite
  rw [summarize_callSites] at hsite
  obtain ⟨x, hx, rfl⟩ := List.mem_map.mp hsite
  obtain ⟨y, _, hy⟩ := List.mem_flatMap.mp hx
  obtain ⟨t, ht, rfl⟩ := List.mem_map.mp hy
  exact hs.callees y.2 y.1.what t ht

/-- What a bound body calls is bound. -/
theorem Frame.Bound.callee (hi : i.Built) {f x : Frame} (hf : f.Bound i) {site : CallSite}
    (hsite : site ∈ ((scanMethod i c f).run w).1.calls) (hx : callee? i site = some x) :
    x.Bound i := by
  have hbound : i.Above (classKey site.thisClass) (classKey site.lookupClass) := by
    rw [scanMethod_run] at hsite
    rcases hbody : (body? f.method).run w with ⟨_ | body, w₁⟩
    · rw [hbody] at hsite
      cases hsite
    · rw [hbody] at hsite
      exact (hf.setting (c := c)).summarize _ body site hsite
  obtain ⟨m, hm, rfl⟩ := Option.map_eq_some_iff.mp hx
  exact Index.isSubtype_iff.mpr (hbound.trans (hi.above_declaringClass hm))

/-- Each stored summary is that of a bound body. -/
def Resolver.Bound (i : Index) (c : Config) (r : Resolver) : Prop :=
  ∀ k s, r.Stores k s →
    ∃ f w, f.key = k ∧ f.Bound i ∧ ((scanMethod i c f).run w).1 = s

theorem Resolver.Bound.calls (hi : i.Built) (h : r.Bound i c) {k : CallKey} {x : Frame}
    (hx : Calls i r k x) : x.Bound i := by
  obtain ⟨s, hs, site, hsite, hx⟩ := hx
  obtain ⟨f, w, -, hf, rfl⟩ := h k s hs
  exact hf.callee hi hsite hx

theorem bound_keeps (hi : i.Built) :
    ScanKeeps i c (fun r _ => r.Bound i c) (fun _ f => f.Bound i) where
  told _ h := h
  extend hf _ := hf
  called h hx := h.calls hi hx
  scan h hf hscan := by
    rcases summaryOf_cases hscan with ⟨_, rfl, rfl⟩ | ⟨_, hrun, rfl⟩
    · exact h
    · intro k s hs
      rcases stores_cons hs with ⟨rfl, rfl⟩ | hs
      · exact ⟨_, _, rfl, hf, congrArg Prod.fst hrun⟩
      · exact h k s hs

theorem methodThrows_shallow {owner method : String} {a : NameSet} (hd : c.maxCallDepth = 0)
    (h : Yields (methodThrows i c owner method) r w a r' w') : r' = r := by
  obtain ⟨f, r₁, w₁, hf, hrest⟩ := h.bind_inv
  obtain ⟨-, rfl⟩ := frame?_yields hf
  cases f with
  | none => exact (yields_pure.mp hrest).2.1
  | some root =>
    obtain ⟨r₂, r₃, w₃, hget, hlast⟩ := hrest.bind_inv
    cases hget
    cases hk : r₁.known? root.key with
    | some s =>
      rw [hk] at hlast
      exact (yields_pure.mp hlast).2.1
    | none =>
      simp only [hk, hd, if_true] at hlast
      exact (yields_pure.mp hlast).2.1

namespace Resolver.Bound
variable {owner method : String}

theorem new : Resolver.new.Bound i c := by
  intro k s h
  cases h

theorem collectGraph (hi : i.Built) (h : r.Bound i c) {root : Frame} (hroot : root.Bound i)
    (hk : r.known? root.key = none) {g : Collected}
    (hg : Yields (collectGraph i c root) r w g r' w') : r'.Bound i c := by
  refine (bound_keeps hi).collectLevels h ?_ (.start hk) (fun _ => rfl) hg
  intro f hf
  rw [List.mem_singleton.mp hf]
  exact hroot

theorem query (hi : i.Built) (h : r.Bound i c) {a : NameSet}
    (hq : Yields (methodThrows i c owner method) r w a r' w') : r'.Bound i c := by
  by_cases hd : c.maxCallDepth = 0
  · rw [methodThrows_shallow hd hq]
    exact h
  · cases hm : i.method? owner method with
    | none =>
      rw [(methodThrows_none hq hm).2.1]
      exact h
    | some m =>
      rcases methodThrows_some (by omega) hq hm with ⟨_, rfl, _⟩ | ⟨hk, g, r₁, w₁, hg, _, rfl, _⟩
      · exact h
      · have hroot : (Frame.mk owner m).Bound i :=
          Index.isSubtype_iff.mpr (hi.above_declaringClass hm)
        have h₁ : r₁.Bound i c := h.collectGraph hi hroot hk hg
        split
        · exact h₁
        · exact h₁

theorem asked (hi : i.Built) (c : Config) (w : Workspace) (queries : List (String × String)) :
    (asked i c w queries).1.Bound i c :=
  ask_keeps (fun r _ => r.Bound i c) (fun h hq => h.query hi hq) new (Yields.of_run _ _ _)

end Resolver.Bound

theorem asked_nil (i : Index) (c : Config) (w : Workspace) : asked i c w [] = (.new, w) := rfl

/-- The frames that are built while a graph is collected: the root, and for each body of the graph
what its calls run. -/
def framesBuilt (i : Index) (r : Resolver) (root : Frame) (g : Collected) : List Frame :=
  root :: g.nodes.flatMap fun n =>
    (((r.summary? n.key).map (·.calls)).getD []).filterMap (callee? i)

theorem mem_framesBuilt {root f : Frame} {g : Collected} : f ∈ framesBuilt i r root g ↔
    f = root ∨ ∃ n ∈ g.nodes, Calls i r n.key f := by
  rw [framesBuilt, List.mem_cons, List.mem_flatMap]
  refine or_congr_right (exists_congr fun n => and_congr_right fun _ => ?_)
  cases hs : r.summary? n.key with
  | none => simp [Calls, hs]
  | some s => simp [Calls, hs]

/- The last call on the way to a key other than the root's is made in the graph. -/
theorem exists_frame_of_mem_keys {root : Frame} {g : Collected} (hs : Settled i r)
    (hk : r.known? root.key = none) (hd : 1 ≤ c.maxCallDepth)
    (hg : Yields (collectGraph i c root) r w g r' w') :
    ∀ k ∈ g.keys, ∃ f ∈ framesBuilt i r' root g, f.key = k := by
  obtain ⟨hb, he, -⟩ := collectGraph_yields hg hd hk
  obtain ⟨levels, hlevels⟩ := Nat.exists_eq_add_of_le' hd
  have hreached : Reached i root r' g (0+levels) := by
    rw [collectGraph, hlevels] at hg
    exact Reached.run hg (.start hk) rfl hs (.start hk)
  intro k hkeys
  obtain ⟨hnone, n, hn, hc⟩ := (hreached r' (.refl _) k).mp hkeys
  cases hc with
  | here => exact ⟨root, mem_framesBuilt.mpr (Or.inl rfl), rfl⟩
  | @call n p s site f hc hstored hsite hf =>
    have hp : p ∈ g.keys := (hreached r' (.refl _) p).mpr
      ⟨(hs.extend he).caller_unknown (.refl _) hstored hsite hf hnone, n, by omega, hc⟩
    obtain ⟨node, hnode, rfl⟩ := hb.mem_keys.mp hp
    exact ⟨f, mem_framesBuilt.mpr (Or.inr ⟨node, hnode, s, hstored, site, hsite, hf⟩), rfl⟩

/-- A query binds `$this` in the method to the class that has its body or to a class below it; and
so does every frame that is built while the graph of the query is collected, after any queries, in
any workspace and at any depth. These are the frames of all bodies of the graph, and what is stored
of each of them is what a frame bound like this gives. -/
theorem frames_bound_below_body {i : Index} {paths : List Source.Path} {w₀ : Workspace}
    (hi : i = ((Index.build paths).run w₀).1) (c : Config) (w : Workspace)
    (queries : List (String × String)) {owner method : String} {m : MethodInfo}
    (hm : i.method? owner method = some m) :
    i.isSubtype owner m.declaringClass = true ∧
    ∀ g r' w', (asked i c w queries).1.known? (Frame.mk owner m).key = none →
      1 ≤ c.maxCallDepth →
      Yields (collectGraph i c ⟨owner, m⟩) (asked i c w queries).1 (asked i c w queries).2 g r' w' →
      (∀ f ∈ framesBuilt i r' ⟨owner, m⟩ g,
        i.isSubtype f.thisClass f.method.declaringClass = true) ∧
      (∀ k ∈ g.keys, ∃ f ∈ framesBuilt i r' ⟨owner, m⟩ g, f.key = k) ∧
      ∀ n ∈ g.nodes, ∃ f w'', f.key = n.key ∧
        i.isSubtype f.thisClass f.method.declaringClass = true ∧
        r'.summary? n.key = some ((scanMethod i c f).run w'').1 := by
  have hbuilt : i.Built := hi ▸ Index.build_built paths w₀
  have hroot : (Frame.mk owner m).Bound i :=
    Index.isSubtype_iff.mpr (hbuilt.above_declaringClass hm)
  refine ⟨hroot, ?_⟩
  intro g r' w' hk hd hg
  have hafter : r'.Bound i c :=
    (Resolver.Bound.asked hbuilt c w queries).collectGraph hbuilt hroot hk hg
  have hsettled : Settled i (asked i c w queries).1 := Settled.new.ask hd (Yields.of_run _ _ _)
  refine ⟨?_, exists_frame_of_mem_keys hsettled hk hd hg, ?_⟩
  · intro f hf
    rcases mem_framesBuilt.mp hf with rfl | ⟨n, _, hcalls⟩
    · exact hroot
    · exact hafter.calls hbuilt hcalls
  · intro n hn
    obtain ⟨s, hs, -⟩ := (collectGraph_yields hg hd hk).1.nodes n hn
    obtain ⟨f, w'', hkey, hf, rfl⟩ := hafter n.key s hs
    exact ⟨f, w'', hkey, hf, hs⟩

/- A class that calls its parent's method of the same name, which calls back. -/
namespace Sample

def callParent (method : String) : Stmt :=
  .expr (.staticCall default (.parentRef default) (.ident method) [] false)

def upAndDown : NamespaceBlock :=
  ⟨none, [], [
    ⟨.classType, "A", "A", [], [], [], [], [method "g" [call "h"]], none, default⟩,
    ⟨.classType, "B", "B", [], [named "A"], [], [],
      [method "g" [callParent "g"], method "h" [raise "E"]], none, default⟩], default⟩

def upAndDownWorkspace : Workspace :=
  ⟨Loader.memory [], [(path, some ⟨path, ⟨[upAndDown], true, default⟩, 1⟩)], 1, []⟩

/-- The method `g` of the lower class. -/
def lower : MethodInfo := MethodInfo.ofDecl ⟨"B", some "A"⟩ path (method "g" [callParent "g"])

end Sample

theorem frames_bound_below_body_upAndDown :
    ((Index.build [Sample.path]).run Sample.upAndDownWorkspace).1.method? "b" "g" =
      some Sample.lower ∧
    ∃ g r' w', Yields (collectGraph ((Index.build [Sample.path]).run Sample.upAndDownWorkspace).1 {}
        ⟨"b", Sample.lower⟩) .new Sample.upAndDownWorkspace g r' w' ∧
      (framesBuilt ((Index.build [Sample.path]).run Sample.upAndDownWorkspace).1 r'
        ⟨"b", Sample.lower⟩ g).map (fun f => (f.thisClass, f.method.declaringClass)) =
          [("b", "B"), ("b", "A"), ("b", "B")] ∧
      ∀ f ∈ framesBuilt ((Index.build [Sample.path]).run Sample.upAndDownWorkspace).1 r'
          ⟨"b", Sample.lower⟩ g,
        ((Index.build [Sample.path]).run Sample.upAndDownWorkspace).1.isSubtype f.thisClass
          f.method.declaringClass = true := by
  have hm : ((Index.build [Sample.path]).run Sample.upAndDownWorkspace).1.method? "b" "g" =
      some Sample.lower := by decide +kernel
  refine ⟨hm, _, _, _, Yields.of_run _ _ _, by decide +kernel, ?_⟩
  have h := frames_bound_below_body rfl {} Sample.upAndDownWorkspace [] hm
  simp only [asked_nil] at h
  exact (h.2 _ _ _ rfl (by decide) (Yields.of_run _ _ _)).1

end Throws

end ContractAudit
