import ContractAudit.Proofs.Bodies
import ContractAudit.Proofs.Ceiling

/-! Answers after other queries. Main statement: an answer is the least solution on the bodies that
fewer calls than the ceiling lead to and on those that are settled, so earlier queries can only add
what lies beyond the ceiling. -/
namespace ContractAudit.Throws

open Source
variable {i : Index} {c : Config} {trees : Path → Option Program} {r r' : Resolver}
  {w w' : Workspace} {g : Collected} {root : Frame} {k : CallKey} {s s' : Summary} {o : String}

/-- The body under a key. -/
def Body (i : Index) (sum : Frame → Summary) (k : CallKey) (s : Summary) : Prop :=
  ∃ f, Formed i sum f ∧ f.key = k ∧ sum f = s

/-- A resolver stores such bodies only. -/
def Traced (i : Index) (sum : Frame → Summary) (r : Resolver) : Prop :=
  ∀ k s, r.Stores k s → Body i sum k s

section
variable {sum : Frame → Summary} {inside : Set CallKey}

theorem Body.alike (hkeys : KeysTell i sum) (h : Body i sum k s) (h' : Body i sum k s') :
    s.Alike s' := by
  obtain ⟨f, hf, hk, rfl⟩ := h
  obtain ⟨f', hf', hk', rfl⟩ := h'
  exact hkeys f f' hf hf' (hk.trans hk'.symm)

/- Another body of the key has a call to the same key. -/
theorem Traced.callee (hkeys : KeysTell i sum) (ht : Traced i sum r) {site : CallSite} {f : Frame}
    (hstored : r.Stores k s') (hs : Body i sum k s) (hsite : site ∈ s.calls)
    (hf : callee? i site = some f) : ∃ site' ∈ s'.calls, site'.caught = site.caught ∧
      ∃ f', callee? i site' = some f' ∧ f'.key = f.key :=
  (hs.alike hkeys (ht k s' hstored)).callee hsite hf

theorem Traced.outcome_iff (hkeys : KeysTell i sum) (ht : Traced i sum r)
    (hstored : ∀ k ∈ inside, ∃ s, r.Stores k s) :
    Outcome i r.Stores inside o k ↔ Outcome i (Body i sum) inside o k := by
  constructor
  · intro h
    exact h.mono ht (Set.Subset.refl _)
  · intro h
    induction h with
    | raised hk hs ho =>
      obtain ⟨s', hs'⟩ := hstored _ hk
      rw [(hs.alike hkeys (ht _ s' hs')).raised] at ho
      exact .raised hk hs' ho
    | call hk hs hsite hf hin pass _ ih =>
      obtain ⟨s', hs'⟩ := hstored _ hk
      obtain ⟨site', hsite', hcaught, f', hf', hkey⟩ := ht.callee hkeys hs' hs hsite hf
      rw [← hkey] at hin ih
      rw [← hcaught] at pass
      exact .call hk hs' hsite' hf' hin pass ih

end

/- Calls do not lead out of a set, so what comes out of its bodies does so within it. -/
theorem Outcome.restrict {body : CallKey → Summary → Prop} {inside A : Set CallKey}
    (hA : ∀ k ∈ A, ∀ s, body k s → ∀ site ∈ s.calls, ∀ f, callee? i site = some f →
      f.key ∈ inside → f.key ∈ A)
    (h : Outcome i body inside o k) (hk : k ∈ A) : Outcome i body A o k := by
  induction h with
  | raised _ hs ho => exact .raised hk hs ho
  | @call k s site f _ hs hsite hf hin pass _ ih =>
    have hfA := hA k hk s hs site hsite f hf hin
    exact .call hk hs hsite hf hfA pass (ih hfA)

/-- What is kept is exact, what is stored are bodies, and the trees are these. -/
structure Ready (i : Index) (c : Config) (trees : Path → Option Program) (r : Resolver)
    (w : Workspace) : Prop where
  settled : Settled i r
  traced : Traced i (summaryIn i c trees) r
  gives : w.Gives i.bodyFiles trees

theorem Ready.new (hw : w.Gives i.bodyFiles trees) : Ready i c trees .new w where
  settled := .new
  traced _ _ h := by cases h
  gives := hw

theorem traced_keeps : ScanKeeps i c
    (fun r w => Traced i (summaryIn i c trees) r ∧ w.Gives i.bodyFiles trees)
    fun _ => Formed i (summaryIn i c trees) where
  told events h := ⟨h.1, h.2.told events⟩
  extend h _ := h
  called := by
    rintro r w k f ⟨ht, _⟩ ⟨s, hs, site, hsite, hf⟩
    obtain ⟨f', hf', _, rfl⟩ := ht k s hs
    exact hf'.call hsite hf
  scan := by
    rintro r w f s r' w' ⟨ht, hw⟩ hf h
    rcases summaryOf_cases h with ⟨_, rfl, rfl⟩ | ⟨_, hscan, rfl⟩
    · exact ⟨ht, hw⟩
    · obtain ⟨hs, hw'⟩ := scanMethod_given (i := i) (c := c) hw hf.file
      rw [hscan] at hs hw'
      refine ⟨?_, hw'⟩
      intro k t hk
      rcases stores_cons hk with ⟨rfl, rfl⟩ | hk
      · exact ⟨f, hf, rfl, hs.symm⟩
      · exact ht k t hk

namespace Ready

theorem collect (h : Ready i c trees r w) (hd : 1 ≤ c.maxCallDepth)
    (hroot : Formed i (summaryIn i c trees) root) (hk : r.known? root.key = none)
    (hg : Yields (collectGraph i c root) r w g r' w') : Ready i c trees r' w' := by
  have he := (collectGraph_yields hg hd hk).2.1
  have hlevel : ∀ f ∈ [root], Formed i (summaryIn i c trees) f := by
    intro f hf
    rw [List.mem_singleton.mp hf]
    exact hroot
  obtain ⟨ht, hw⟩ :=
    traced_keeps.collectLevels ⟨h.traced, h.gives⟩ hlevel (.start hk) (fun _ => rfl) hg
  exact ⟨h.settled.extend he, ht, hw⟩

theorem query {owner method : String} {a : NameSet} (h : Ready i c trees r w)
    (hd : 1 ≤ c.maxCallDepth) (hq : Yields (methodThrows i c owner method) r w a r' w') :
    Ready i c trees r' w' := by
  have hs := h.settled.query hd hq
  cases hm : i.method? owner method with
  | none =>
    obtain ⟨_, rfl, events, rfl⟩ := methodThrows_none hq hm
    exact ⟨hs, h.traced, h.gives.told events⟩
  | some m =>
    rcases methodThrows_some hd hq hm with ⟨_, rfl, rfl⟩ | ⟨hk, g, r₁, w₁, hg, _, hr, events, rfl⟩
    · exact h
    · have h₁ := h.collect hd (.query hm) hk hg
      refine ⟨hs, ?_, h₁.gives.told events⟩
      -- remembering results stores no body
      have hsummaries : r'.summaries = r₁.summaries := by
        rw [hr]
        split <;> rfl
      intro k s hstored
      apply h₁.traced k s
      rw [Resolver.Stores, Resolver.summary?, ← hsummaries]
      exact hstored

theorem asked (hw : w.Gives i.bodyFiles trees) (hd : 1 ≤ c.maxCallDepth)
    (queries : List (String × String)) :
    Ready i c trees (asked i c w queries).1 (asked i c w queries).2 :=
  ask_keeps (Ready i c trees) (fun h hq => h.query hd hq) (.new hw) (Yields.of_run _ _ _)

end Ready

/-- The keys that fewer than `d` calls lead to. -/
def near (i : Index) (body : CallKey → Summary → Prop) (start : CallKey) (d : Nat) :
    Set CallKey :=
  { k | ∃ n < d, Chain i body start n k }

/-- The keys for which a result is kept. -/
def kept (r : Resolver) : Set CallKey := { k | (r.known? k).isSome }

theorem mem_kept : k ∈ kept r ↔ ∃ t, r.known? k = some t := Option.isSome_iff_exists

theorem kept_new : kept .new = ∅ := by
  apply Set.eq_empty_of_forall_notMem
  intro k hk
  obtain ⟨t, ht⟩ := mem_kept.mp hk
  cases ht

section
variable (hkeys : KeysTell i (summaryIn i c trees)) (hd : 1 ≤ c.maxCallDepth)
  (h : Ready i c trees r w)
include hkeys h

theorem Ready.kept_closed {site : CallSite} {f : Frame} (hk : k ∈ kept r)
    (hs : Body i (summaryIn i c trees) k s) (hsite : site ∈ s.calls)
    (hf : callee? i site = some f) : f.key ∈ kept r := by
  obtain ⟨t, ht⟩ := mem_kept.mp hk
  obtain ⟨b, hb, hcalls⟩ := h.settled.closed ht
  obtain ⟨site', hsite', _, f', hf', hkey⟩ := h.traced.callee hkeys hb hs hsite hf
  rw [← hkey]
  exact hcalls site' hsite' f' hf'

/- What is known is what comes out of the kept bodies alone. -/
theorem Ready.known_iff {a : NameSet} {inside : Set CallKey} (hk : r.known? k = some a)
    (hin : kept r ⊆ inside) :
    o ∈ a ↔ Outcome i (Body i (summaryIn i c trees)) inside o k := by
  have hmem : k ∈ kept r := mem_kept.mpr ⟨a, hk⟩
  have hstored : ∀ k ∈ kept r, ∃ s, r.Stores k s := by
    intro k hk
    obtain ⟨t, ht⟩ := mem_kept.mp hk
    obtain ⟨b, hb, _⟩ := h.settled.closed ht
    exact ⟨b, hb⟩
  calc o ∈ a
      ↔ Outcome i r.Stores Set.univ o k := h.settled.exact hk o
    _ ↔ Outcome i r.Stores (kept r) o k := by
        constructor
        · intro hout
          refine hout.restrict ?_ hmem
          intro k hk s hs site hsite f hf _
          exact h.kept_closed hkeys hk (h.traced k s hs) hsite hf
        · intro hout
          exact hout.mono (fun _ _ hs => hs) (Set.subset_univ _)
    _ ↔ Outcome i (Body i (summaryIn i c trees)) (kept r) o k :=
        h.traced.outcome_iff hkeys hstored
    _ ↔ Outcome i (Body i (summaryIn i c trees)) inside o k := by
        constructor
        · intro hout
          exact hout.mono (fun _ _ hs => hs) hin
        · intro hout
          refine hout.restrict ?_ hmem
          intro k hk s hs site hsite f hf _
          exact h.kept_closed hkeys hk hs hsite hf

include hd

theorem Ready.mem_keys (hroot : Formed i (summaryIn i c trees) root)
    (hunknown : r.known? root.key = none)
    (hg : Yields (collectGraph i c root) r w g r' w') :
    k ∈ g.keys ↔ r.known? k = none ∧
      k ∈ near i (Body i (summaryIn i c trees)) root.key c.maxCallDepth := by
  obtain ⟨hb, he, _⟩ := collectGraph_yields hg hd hunknown
  have h' := h.collect hd hroot hunknown hg
  obtain ⟨d, hdepth⟩ := Nat.exists_eq_add_of_le' hd
  rw [collectGraph, hdepth] at hg
  have hreached := (Reached.start hunknown).run hg (.start hunknown) rfl h.settled r' (.refl _)
  rw [← he.known, hdepth]
  constructor
  · intro hk
    obtain ⟨hnone, n, hn, hc⟩ := (hreached k).mp hk
    exact ⟨hnone, n, by omega, hc.mono h'.traced⟩
  · rintro ⟨hnone, n, hn, hc⟩
    refine (hreached k).mpr ⟨hnone, n, by omega, ?_⟩
    -- each body on the way is one of the graph, so one that is alike is stored
    induction hc with
    | here => exact .here
    | @call n p s site f hc hs hsite hf ih =>
      have hp : r'.known? p = none := by
        cases hknown : r'.known? p with
        | none => rfl
        | some t =>
          obtain ⟨t', ht'⟩ := mem_kept.mp
            (h'.kept_closed hkeys (mem_kept.mpr ⟨t, hknown⟩) hs hsite hf)
          cases hnone.symm.trans ht'
      have hc' := ih hp (by omega)
      obtain ⟨node, hnode, rfl⟩ := hb.mem_keys.mp ((hreached p).mpr ⟨hp, n, by omega, hc'⟩)
      obtain ⟨s', hs', _⟩ := hb.nodes node hnode
      obtain ⟨site', hsite', _, f', hf', hkey⟩ := h'.traced.callee hkeys hs' hs hsite hf
      rw [← hkey]
      exact .call hc' hs' hsite' hf'

/-- An answer is the least solution on the bodies that fewer calls than the ceiling lead to and on
those that are settled. -/
theorem Ready.answer {owner method : String} {m : MethodInfo} {a : NameSet}
    (hm : i.method? owner method = some m)
    (hq : Yields (methodThrows i c owner method) r w a r' w') (o : String) :
    o ∈ a ↔ Outcome i (Body i (summaryIn i c trees))
      (near i (Body i (summaryIn i c trees)) (Frame.mk owner m).key c.maxCallDepth ∪ kept r) o
      (Frame.mk owner m).key := by
  rcases methodThrows_some hd hq hm with ⟨hknown, _⟩ | ⟨hunknown, g, r₁, w₁, hg, rfl, _⟩
  · exact h.known_iff hkeys hknown Set.subset_union_right
  · obtain ⟨hb, he, hroot⟩ := collectGraph_yields hg hd hunknown
    have h₁ := h.collect hd (.query hm) hunknown hg
    have hkept : kept r₁ = kept r := by rw [kept, kept, he.known]
    have hmem {k : CallKey} := h.mem_keys (k := k) hkeys hd (.query hm) hunknown hg
    have hstored : ∀ k ∈ near i (Body i (summaryIn i c trees)) (Frame.mk owner m).key
        c.maxCallDepth ∪ kept r, ∃ s, r₁.Stores k s := by
      intro k hk
      cases hknown : r.known? k with
      | none =>
        have hnear := hk.resolve_right (by simp [kept, hknown])
        obtain ⟨n, hn, rfl⟩ := hb.mem_keys.mp (hmem.mpr ⟨hknown, hnear⟩)
        obtain ⟨s, hs, _⟩ := hb.nodes n hn
        exact ⟨s, hs⟩
      | some t =>
        obtain ⟨b, hb, _⟩ := h.settled.closed hknown
        exact ⟨b, he.summary hb⟩
    rw [Graph.mem_outcomes, ← h₁.traced.outcome_iff hkeys hstored]
    rw [List.head?_eq_getElem?] at hroot
    apply hb.raises_iff (fun _ _ _ => Iff.rfl) _ _ _ hroot
    · intro k hk
      exact Or.inl (hmem.mp hk).2
    · intro k t hknown
      have hin : k ∈ kept r := hkept ▸ mem_kept.mpr ⟨t, hknown⟩
      refine ⟨Or.inr hin, fun o => ?_⟩
      exact (h₁.known_iff hkeys hknown (hkept ▸ Set.subset_union_right)).trans
        (h₁.traced.outcome_iff hkeys hstored).symm
    · intro k _ s _ site _ f _ hin hnone
      rw [he.known] at hnone
      exact hmem.mpr ⟨hnone, hin.resolve_right (by simp [kept, hnone])⟩

end

section
variable {d : Nat} (hkeys : KeysTell i (summaryIn i c trees)) (hd : 1 ≤ d)
  (hw : w.Gives i.bodyFiles trees)
include hkeys hd hw

theorem mem_freshAnswer_iff {owner method : String} {m : MethodInfo}
    (hm : i.method? owner method = some m) (o : String) :
    o ∈ freshAnswer i c w owner method d ↔ Outcome i (Body i (summaryIn i c trees))
      (near i (Body i (summaryIn i c trees)) (Frame.mk owner m).key d) o
      (Frame.mk owner m).key := by
  -- the ceiling makes no difference to summaries
  have hkeys' : KeysTell i (summaryIn i { c with maxCallDepth := d } trees) := hkeys
  have h := (Ready.new hw).answer hkeys' hd hm (Yields.of_run _ _ _) o
  rw [kept_new, Set.union_empty] at h
  exact h

omit hd in
theorem mem_askNext_iff {owner method : String} {m : MethodInfo} (hceiling : 1 ≤ c.maxCallDepth)
    (hm : i.method? owner method = some m) (queries : List (String × String)) (o : String) :
    o ∈ (askNext i c w queries owner method).1 ↔ Outcome i (Body i (summaryIn i c trees))
      (near i (Body i (summaryIn i c trees)) (Frame.mk owner m).key c.maxCallDepth ∪
        kept (asked i c w queries).1) o (Frame.mk owner m).key :=
  (Ready.asked hw hceiling queries).answer hkeys hceiling hm (Yields.of_run _ _ _) o

/- Where a fresh resolver drops no call, none leads out of what it collects. -/
theorem near_closed (hroot : Formed i (summaryIn i c trees) root)
    (hwhole : (fresh i c w root d).1.truncated = false) {site : CallSite} {f : Frame}
    (hk : k ∈ near i (Body i (summaryIn i c trees)) root.key d)
    (hs : Body i (summaryIn i c trees) k s) (hsite : site ∈ s.calls)
    (hf : callee? i site = some f) :
    f.key ∈ near i (Body i (summaryIn i c trees)) root.key d := by
  have hg : Yields (collectGraph i { c with maxCallDepth := d } root) .new w
      (fresh i c w root d).1 (fresh i c w root d).2 _ := Yields.of_run _ _ _
  have hkeys' : KeysTell i (summaryIn i { c with maxCallDepth := d } trees) := hkeys
  have hnew : Ready i { c with maxCallDepth := d } trees .new w := .new hw
  have hready := hnew.collect hd hroot rfl hg
  have hmem {k : CallKey} := hnew.mem_keys (k := k) hkeys' hd hroot rfl hg
  obtain ⟨hb, hmemo, _⟩ := fresh_building i c w root hd
  obtain ⟨n, hn, rfl⟩ := hb.mem_keys.mp (hmem.mpr ⟨rfl, hk⟩)
  obtain ⟨s', hs', _⟩ := hb.nodes n hn
  obtain ⟨site', hsite', _, f', hf', hkey⟩ := hready.traced.callee hkeys' hs' hs hsite hf
  rw [← hkey]
  have hin := (hb.kept hwhole hn hs' hsite' hf').resolve_right (by simp [Resolver.known?, hmemo])
  exact (hmem.mp hin).2

/- A fresh resolver finds all that is found after queries if no call leads from what it collects to
further bodies that these know. -/
theorem mem_freshAnswer_of_closed {owner method : String} {m : MethodInfo}
    (hceiling : 1 ≤ c.maxCallDepth) (hm : i.method? owner method = some m)
    {queries : List (String × String)}
    (hclosed : ∀ k ∈ near i (Body i (summaryIn i c trees)) (Frame.mk owner m).key d, ∀ s,
      Body i (summaryIn i c trees) k s → ∀ site ∈ s.calls, ∀ f, callee? i site = some f →
      f.key ∈ near i (Body i (summaryIn i c trees)) (Frame.mk owner m).key c.maxCallDepth ∪
        kept (asked i c w queries).1 →
      f.key ∈ near i (Body i (summaryIn i c trees)) (Frame.mk owner m).key d) :
    ∀ o ∈ (askNext i c w queries owner method).1, o ∈ freshAnswer i c w owner method d := by
  intro o ho
  have houtcome := (mem_askNext_iff hkeys hw hceiling hm queries o).mp ho
  exact (mem_freshAnswer_iff hkeys hd hw hm o).mpr (houtcome.restrict hclosed ⟨0, hd, .here⟩)

end

/-- The bodies that queries lead to, as a workspace has them. -/
def bodiesOf (i : Index) (c : Config) (w : Workspace) : CallKey → Summary → Prop :=
  Body i (summaryIn i c w.tree?)

/-- Where keys tell bodies, an answer after any queries is the least solution on the bodies that
fewer calls than the ceiling lead to and on those that are settled by then; with a fresh resolver it
is that on the first alone. So it has what a fresh resolver gives, nothing that is not found with a
ceiling at which no call is dropped, and no more than a fresh resolver gives if that drops no call
or if no settled body lies beyond the ceiling. -/
theorem history_adds_settled_bodies (i : Index) (c : Config) (hd : 1 ≤ c.maxCallDepth)
    (w : Workspace) (hw : w.Gives i.bodyFiles w.tree?) (hkeys : KeysTell i (summaryIn i c w.tree?))
    (queries : List (String × String)) (owner method : String) :
    (i.method? owner method = none → (askNext i c w queries owner method).1 = ∅ ∧
      freshAnswer i c w owner method c.maxCallDepth = ∅) ∧
    ∀ m, i.method? owner method = some m →
      { o | o ∈ (askNext i c w queries owner method).1 } =
        least i (bodiesOf i c w)
          (near i (bodiesOf i c w) (Frame.mk owner m).key c.maxCallDepth ∪
            kept (asked i c w queries).1) (Frame.mk owner m).key ∧
      { o | o ∈ freshAnswer i c w owner method c.maxCallDepth } =
        least i (bodiesOf i c w) (near i (bodiesOf i c w) (Frame.mk owner m).key c.maxCallDepth)
          (Frame.mk owner m).key ∧
      (∀ d, 1 ≤ d → freshAnswer i c (asked i c w queries).2 owner method d =
        freshAnswer i c w owner method d) ∧
      (∀ o ∈ freshAnswer i c w owner method c.maxCallDepth,
        o ∈ (askNext i c w queries owner method).1) ∧
      (∀ d, 1 ≤ d → (fresh i c w ⟨owner, m⟩ d).1.truncated = false →
        ∀ o ∈ (askNext i c w queries owner method).1, o ∈ freshAnswer i c w owner method d) ∧
      ((fresh i c w ⟨owner, m⟩ c.maxCallDepth).1.truncated = false ∨
        (∀ k ∈ kept (asked i c w queries).1,
          (∃ n, Chain i (bodiesOf i c w) (Frame.mk owner m).key n k) →
          k ∈ near i (bodiesOf i c w) (Frame.mk owner m).key c.maxCallDepth) →
        (askNext i c w queries owner method).1 =
          freshAnswer i c w owner method c.maxCallDepth) := by
  refine ⟨fun hm => ?_, fun m hm => ?_⟩
  · exact ⟨(methodThrows_none (Yields.of_run _ _ _) hm).1,
      (methodThrows_none (Yields.of_run _ _ _) hm).1⟩
  have hanswer := mem_askNext_iff hkeys hw hd hm queries
  have hfresh := mem_freshAnswer_iff hkeys hd hw hm
  have hmore : ∀ o ∈ freshAnswer i c w owner method c.maxCallDepth,
      o ∈ (askNext i c w queries owner method).1 := by
    intro o ho
    exact (hanswer o).mpr (((hfresh o).mp ho).mono (fun _ _ hs => hs) Set.subset_union_left)
  have hwhole : ∀ d, 1 ≤ d → (fresh i c w ⟨owner, m⟩ d).1.truncated = false →
      ∀ o ∈ (askNext i c w queries owner method).1, o ∈ freshAnswer i c w owner method d :=
    fun d hd' hwhole => mem_freshAnswer_of_closed hkeys hd' hw hd hm
      fun k hk s hs site hsite f hf _ => near_closed hkeys hd' hw (.query hm) hwhole hk hs hsite hf
  refine ⟨Set.ext hanswer, Set.ext hfresh, ?_, hmore, hwhole, ?_⟩
  · intro d hd'
    apply NameSet.ext
    intro o
    rw [mem_freshAnswer_iff hkeys hd' hw hm]
    exact mem_freshAnswer_iff hkeys hd' (Ready.asked hw hd queries).gives hm o
  · intro hall
    apply NameSet.ext
    intro o
    refine ⟨?_, hmore o⟩
    rcases hall with hnone | hkept
    · exact hwhole c.maxCallDepth hd hnone o
    · refine mem_freshAnswer_of_closed hkeys hd hw hd hm ?_ o
      rintro k ⟨n, hn, hc⟩ s hs site hsite f hf hin
      exact hin.elim id fun hf' => hkept _ hf' ⟨n+1, .call hc hs hsite hf⟩

namespace Sample

theorem index_built : index.Built where
  distinct := by decide +kernel
  declaring := by decide +kernel
  source := by decide +kernel

theorem workspace_gives : workspace.Gives index.bodyFiles workspace.tree? := by
  have hloader : workspace.loader = Loader.memory [] := rfl
  exact Workspace.gives_of_memory hloader _

/- All methods stand in one class. -/
theorem keysTell (c : Config) : KeysTell index (summaryIn index c workspace.tree?) := by
  have hclass : ∀ d ∈ index.classes, ∀ m ∈ d.methods, m.declaringClass = "A" := by decide +kernel
  have hdeclaring {f : Frame} (hf : Formed index (summaryIn index c workspace.tree?) f) :
      f.method.declaringClass = "A" := by
    obtain ⟨_, _, hm⟩ := hf.method
    obtain ⟨d, hd, hm⟩ := Index.mem_of_method? hm
    exact hclass d hd _ (List.mem_of_find?_eq_some hm)
  refine keysTell_of_sameScope index_built workspace_gives fun f g hf hg _ => Or.inl ?_
  rw [hdeclaring hf, hdeclaring hg]

end Sample

/- After `g` the exception of `h` is known for `f`, two calls away. -/
theorem history_adds_settled_bodies_sample :
    Sample.index.method? "A" "f" = some Sample.first ∧
    (∀ o ∈ freshAnswer Sample.index { maxCallDepth := 2 } Sample.workspace "A" "f" 2,
      o ∈ (askNext Sample.index { maxCallDepth := 2 } Sample.workspace [("A", "g")] "A" "f").1) ∧
    (∀ o ∈ (askNext Sample.index { maxCallDepth := 2 } Sample.workspace [("A", "g")] "A" "f").1,
      o ∈ freshAnswer Sample.index { maxCallDepth := 2 } Sample.workspace "A" "f" 3) ∧
    (askNext Sample.index { maxCallDepth := 3 } Sample.workspace [("A", "g")] "A" "f").1 =
      freshAnswer Sample.index { maxCallDepth := 3 } Sample.workspace "A" "f" 3 := by
  have hm : Sample.index.method? "A" "f" = some Sample.first := by decide +kernel
  have hall (c : Config) (hd : 1 ≤ c.maxCallDepth) := (history_adds_settled_bodies Sample.index c hd
    Sample.workspace Sample.workspace_gives (Sample.keysTell c) [("A", "g")] "A" "f").2 _ hm
  obtain ⟨_, _, _, hmore, hwhole, _⟩ := hall { maxCallDepth := 2 } (by decide)
  obtain ⟨_, _, _, _, _, hsame⟩ := hall { maxCallDepth := 3 } (by decide)
  exact ⟨hm, hmore, hwhole 3 (by decide) (by decide +kernel), hsame (Or.inl (by decide +kernel))⟩

theorem settled_body_beyond_ceiling :
    (askNext Sample.index { maxCallDepth := 2 } Sample.workspace [("A", "g")] "A" "f").1 =
      NameSet.ofList ["E", "F"] ∧
    freshAnswer Sample.index { maxCallDepth := 2 } Sample.workspace "A" "f" 2 = ∅ := by
  decide +kernel

end ContractAudit.Throws
