import ContractAudit.Throws.Resolver
import Mathlib.Data.List.Basic
import Mathlib.Data.List.Nodup

/-! The call graph that a query collects. Main statement: its nodes are the bodies under its keys,
each key once and the root first, every call that leads to a known callee or to a key has its edge,
and the flag is set exactly if some other call was dropped. -/
namespace ContractAudit.Throws
variable {α β : Type} {i : Index} {c : Config} {r r' r'' : Resolver} {w w' w'' : Workspace}

/-- A computation gives this answer and leaves these states. -/
def Yields (m : Resolve α) (r : Resolver) (w : Workspace) (a : α) (r' : Resolver)
    (w' : Workspace) : Prop :=
  (m.run r).run w = ((a, r'), w')

theorem Yields.of_run (m : Resolve α) (r : Resolver) (w : Workspace) :
    Yields m r w ((m.run r).run w).1.1 ((m.run r).run w).1.2 ((m.run r).run w).2 := rfl

theorem Yields.unique {m : Resolve α} {a a' : α} (h : Yields m r w a r' w')
    (h' : Yields m r w a' r'' w'') : a' = a ∧ r'' = r' ∧ w'' = w' := by
  cases h'.symm.trans h
  exact ⟨rfl, rfl, rfl⟩

theorem yields_pure {a b : α} :
    Yields (pure a) r w b r' w' ↔ b = a ∧ r' = r ∧ w' = w := by
  constructor
  · intro h
    cases h
    exact ⟨rfl, rfl, rfl⟩
  · rintro ⟨rfl, rfl, rfl⟩
    rfl

theorem Yields.bind {m : Resolve α} {f : α → Resolve β} {a : α} {b : β} (h : Yields m r w a r' w')
    (h' : Yields (f a) r' w' b r'' w'') : Yields (m >>= f) r w b r'' w'' := by
  unfold Yields at h h' ⊢
  rw [StateT.run_bind, StateT.run_bind, h]
  exact h'

theorem Yields.bind_inv {m : Resolve α} {f : α → Resolve β} {b : β}
    (h : Yields (m >>= f) r w b r'' w'') :
    ∃ a r' w', Yields m r w a r' w' ∧ Yields (f a) r' w' b r'' w'' :=
  ⟨_, _, _, Yields.of_run m r w, h⟩

theorem body?_run (m : MethodInfo) (w : Workspace) : (body? m).run w =
    match m.file with
    | none => (none, w)
    | some file =>
      (((Workspace.parse file).run w).1.bind fun f =>
        (f.program.method? m.sourceOwner m.name).bind (·.body),
        ((Workspace.parse file).run w).2) := by
  unfold body?
  cases m.file with
  | none => rfl
  | some file =>
    dsimp only
    rw [StateT.run_bind]
    rcases (Workspace.parse file).run w with ⟨_ | f, w'⟩
    · rfl
    · rfl

theorem scanMethod_run (f : Frame) (w : Workspace) : (scanMethod i c f).run w =
    match (body? f.method).run w with
    | (none, w') => (Summary.empty, w')
    | (some body, w') =>
      ((summarize (settingOf i c f) f.method.params body).1,
        { w' with events :=
          (summarize (settingOf i c f) f.method.params body).2.reverse ++ w'.events }) := by
  unfold scanMethod
  rw [StateT.run_bind]
  rcases (body? f.method).run w with ⟨_ | f, w'⟩
  · rfl
  · rfl

structure Resolver.Extends (r r' : Resolver) : Prop where
  summary : ∀ {k s}, r.summary? k = some s → r'.summary? k = some s
  memo : r'.memo = r.memo

namespace Resolver.Extends

theorem refl (r : Resolver) : r.Extends r := ⟨id, rfl⟩

theorem trans (h : r.Extends r') (h' : r'.Extends r'') : r.Extends r'' :=
  ⟨fun hk => h'.summary (h.summary hk), h'.memo.trans h.memo⟩

theorem known (h : r.Extends r') : r'.known? = r.known? := by
  funext k
  rw [Resolver.known?, Resolver.known?, h.memo]

end Resolver.Extends

theorem frame?_yields {t l m : String} {f : Option Frame}
    (h : Yields (frame? i t l m) r w f r' w') :
    f = (i.method? l m).map (Frame.mk t) ∧ r' = r := by
  unfold frame? at h
  cases hm : i.method? l m with
  | some info =>
    rw [hm] at h
    obtain ⟨rfl, rfl, _⟩ := yields_pure.mp h
    exact ⟨rfl, rfl⟩
  | none =>
    rw [hm] at h
    cases h
    exact ⟨rfl, rfl⟩

/- A summary is there, or the body is scanned and the summary stored. -/
theorem summaryOf_cases {f : Frame} {s : Summary} (h : Yields (summaryOf i c f) r w s r' w') :
    (r.summary? f.key = some s ∧ r' = r ∧ w' = w) ∨
      r.summary? f.key = none ∧ (scanMethod i c f).run w = (s, w') ∧
        r' = { r with summaries := (f.key, s) :: r.summaries } := by
  cases hs : r.summary? f.key with
  | some kept =>
    have hr : Yields (summaryOf i c f) r w kept r w := by
      simp [Yields, summaryOf, hs]
      rfl
    obtain ⟨rfl, rfl, rfl⟩ := hr.unique h
    exact Or.inl ⟨rfl, rfl, rfl⟩
  | none =>
    have hr : Yields (summaryOf i c f) r w ((scanMethod i c f).run w).1
        { r with summaries := (f.key, ((scanMethod i c f).run w).1) :: r.summaries }
        ((scanMethod i c f).run w).2 := by
      simp [Yields, summaryOf, hs]
      rfl
    obtain ⟨rfl, rfl, rfl⟩ := hr.unique h
    exact Or.inr ⟨rfl, rfl, rfl⟩

theorem summaryOf_yields {f : Frame} {s : Summary} (h : Yields (summaryOf i c f) r w s r' w') :
    r.Extends r' ∧ r'.summary? f.key = some s := by
  rcases summaryOf_cases h with ⟨hs, rfl, rfl⟩ | ⟨hs, _, rfl⟩
  · exact ⟨.refl _, hs⟩
  · refine ⟨⟨?_, rfl⟩, ?_⟩
    · intro k s hk
      have hne : (k == f.key) = false := by
        rw [beq_eq_false_iff_ne]
        rintro rfl
        rw [hs] at hk
        cases hk
      rw [Resolver.summary?, List.lookup_cons, hne]
      exact hk
    · simp [Resolver.summary?]

/-- The body that a call runs, if the class has such a method. -/
def callee? (i : Index) (site : CallSite) : Option Frame :=
  (i.method? site.lookupClass site.method).map (Frame.mk site.thisClass)

/-- The edge of a call in a graph with these keys: to what is known of the callee, else to its
node. -/
def edge? (i : Index) (known : CallKey → Option NameSet) (keys : List CallKey)
    (site : CallSite) : Option Edge :=
  (callee? i site).bind fun f =>
    match known f.key with
    | some s => some ⟨.settled s, site.caught⟩
    | none => (keys.idxOf? f.key).map fun p => ⟨.node p, site.caught⟩

/-- A call runs a body that is neither known nor in the graph. -/
def Dropped (i : Index) (known : CallKey → Option NameSet) (keys : List CallKey)
    (site : CallSite) : Prop :=
  ∃ f, callee? i site = some f ∧ known f.key = none ∧ f.key ∉ keys

section
variable {known : CallKey → Option NameSet} {keys more : List CallKey} {site : CallSite}

theorem idxOf?_append_of_mem {k : CallKey} (h : k ∈ keys) :
    (keys ++ more).idxOf? k = keys.idxOf? k := by
  obtain ⟨p, hp⟩ := Option.isSome_iff_exists.mp (List.isSome_idxOf?.mpr h)
  rw [hp]
  rw [List.idxOf?] at hp ⊢
  rw [List.findIdx?_append, hp]
  rfl

theorem idxOf?_eq_some_iff_of_nodup {k : CallKey} {p : Nat} (h : keys.Nodup) :
    keys.idxOf? k = some p ↔ keys[p]? = some k := by
  rw [List.idxOf?_eq_some_iff, List.getElem?_eq_some_iff]
  constructor
  · rintro ⟨hp, hk, _⟩
    exact ⟨hp, hk⟩
  · rintro ⟨hp, rfl⟩
    exact ⟨hp, rfl, fun q hq heq => Nat.ne_of_lt hq (h.getElem_inj_iff.mp heq)⟩

theorem Dropped.of_append (h : Dropped i known (keys ++ more) site) :
    Dropped i known keys site := by
  obtain ⟨f, hf, hk, hn⟩ := h
  exact ⟨f, hf, hk, fun hm => hn (List.mem_append_left _ hm)⟩

/- A longer list of keys gives a call that was not dropped the same edge. -/
theorem edge?_append (h : ¬ Dropped i known keys site) :
    edge? i known (keys ++ more) site = edge? i known keys site := by
  unfold edge?
  cases hf : callee? i site with
  | none => rfl
  | some f =>
    cases hk : known f.key with
    | some s => simp [hk]
    | none =>
      have hm : f.key ∈ keys := by
        by_contra hn
        exact h ⟨f, hf, hk, hn⟩
      simp [hk, idxOf?_append_of_mem hm]

end

/-- What following calls makes of a graph; `fs` are the bodies that it takes up. -/
structure Followed (i : Index) (deeper : Bool) (known : CallKey → Option NameSet)
    (g : Collected) (sites : List CallSite) (g' : Collected) (edges : List Edge)
    (fs : List Frame) : Prop where
  nodes : g'.nodes = g.nodes
  keys : g'.keys = g.keys ++ fs.map Frame.key
  next : g'.next = g.next ++ fs
  called : ∀ f ∈ fs, known f.key = none ∧ ∃ site ∈ sites, callee? i site = some f
  shallow : deeper = false → fs = []
  nodup : g.keys.Nodup → g'.keys.Nodup
  edges : edges = sites.filterMap (edge? i known g'.keys)
  truncated : g'.truncated = true ↔
    g.truncated = true ∨ ∃ site ∈ sites, Dropped i known g'.keys site
  deep : deeper = true → ∀ site ∈ sites, ¬ Dropped i known g'.keys site

section
variable {deeper : Bool} {known : CallKey → Option NameSet} {g g' g'' : Collected}
  {sites sites' : List CallSite} {es es' : List Edge} {fs fs' : List Frame}

theorem Followed.nil (g : Collected) : Followed i deeper known g [] g [] [] where
  nodes := rfl
  keys := by simp
  next := by simp
  called := by simp
  shallow _ := rfl
  nodup := id
  edges := rfl
  truncated := by simp
  deep := by simp

/- Either nothing is dropped, or no key comes after: edges and dropped calls stay as they were. -/
theorem Followed.settle (h : Followed i deeper known g sites g' es fs)
    (h' : Followed i deeper known g' sites' g'' es' fs') {site : CallSite} (hs : site ∈ sites) :
    edge? i known g''.keys site = edge? i known g'.keys site ∧
      (Dropped i known g''.keys site ↔ Dropped i known g'.keys site) := by
  cases deeper with
  | true =>
    have hd := h.deep rfl site hs
    rw [h'.keys]
    exact ⟨edge?_append hd, fun hd' => hd'.of_append, fun hd' => absurd hd' hd⟩
  | false =>
    rw [h'.keys, h'.shallow rfl]
    simp

theorem Followed.append (h : Followed i deeper known g sites g' es fs)
    (h' : Followed i deeper known g' sites' g'' es' fs') :
    Followed i deeper known g (sites ++ sites') g'' (es ++ es') (fs ++ fs') where
  nodes := h'.nodes.trans h.nodes
  keys := by rw [h'.keys, h.keys, List.map_append, List.append_assoc]
  next := by rw [h'.next, h.next, List.append_assoc]
  called f hf := by
    rcases List.mem_append.mp hf with hf | hf
    · obtain ⟨hk, site, hs, hc⟩ := h.called f hf
      exact ⟨hk, site, List.mem_append_left _ hs, hc⟩
    · obtain ⟨hk, site, hs, hc⟩ := h'.called f hf
      exact ⟨hk, site, List.mem_append_right _ hs, hc⟩
  shallow hd := by rw [h.shallow hd, h'.shallow hd]; rfl
  nodup hn := h'.nodup (h.nodup hn)
  edges := by
    rw [List.filterMap_append, ← h'.edges, h.edges]
    congr 1
    exact List.filterMap_congr fun site hs => (h.settle h' hs).1.symm
  truncated := by
    have hold : (∃ site ∈ sites, Dropped i known g''.keys site) ↔
        ∃ site ∈ sites, Dropped i known g'.keys site := by
      constructor
      · rintro ⟨site, hs, hd⟩
        exact ⟨site, hs, (h.settle h' hs).2.mp hd⟩
      · rintro ⟨site, hs, hd⟩
        exact ⟨site, hs, (h.settle h' hs).2.mpr hd⟩
    rw [h'.truncated, h.truncated]
    simp only [List.mem_append, or_and_right, exists_or, hold, or_assoc]
  deep hd site hs := by
    rcases List.mem_append.mp hs with hs | hs
    · rw [(h.settle h' hs).2]
      exact h.deep hd site hs
    · exact h'.deep hd site hs

/- The four ways of a call that runs a body: known, in the graph, taken up, dropped. -/
theorem followed_target {f : Frame} {site : CallSite} {t : Option Target}
    (hf : callee? i site = some f) (h : g.target deeper r f = (g', t)) :
    ∃ fs, Followed i deeper r.known? g [site] g' (t.map (⟨·, site.caught⟩)).toList fs := by
  unfold Collected.target at h
  cases hk : r.known? f.key with
  | some s =>
    rw [hk] at h
    cases h
    have hd (keys : List CallKey) : ¬ Dropped i r.known? keys site := by
      rintro ⟨f', hf', hn, _⟩
      cases hf.symm.trans hf'
      rw [hk] at hn
      cases hn
    exact ⟨[], rfl, by simp, by simp, by simp, fun _ => rfl, id,
      by simp [edge?, hf, hk], by simp [hd], by simp [hd]⟩
  | none =>
    rw [hk] at h
    cases hp : g.keys.idxOf? f.key with
    | some p =>
      rw [hp] at h
      cases h
      have hm : f.key ∈ g.keys := List.isSome_idxOf?.mp (by rw [hp]; rfl)
      have hd : ¬ Dropped i r.known? g.keys site := by
        rintro ⟨f', hf', _, hn⟩
        cases hf.symm.trans hf'
        exact hn hm
      exact ⟨[], rfl, by simp, by simp, by simp, fun _ => rfl, id,
        by simp [edge?, hf, hk, hp], by simp [hd], by simp [hd]⟩
    | none =>
      rw [hp] at h
      have hm : f.key ∉ g.keys := List.idxOf?_eq_none_iff.mp hp
      cases deeper with
      | true =>
        cases h
        have hd : ¬ Dropped i r.known? (g.keys ++ [f.key]) site := by
          rintro ⟨f', hf', _, hn⟩
          cases hf.symm.trans hf'
          exact hn (by simp)
        have hi : (g.keys ++ [f.key]).idxOf? f.key = some g.keys.length := by
          rw [List.idxOf?] at hp ⊢
          rw [List.findIdx?_append, hp]
          simp
        exact ⟨[f], rfl, rfl, rfl, by simp [hk, hf], by simp,
          fun hn => List.nodup_append.mpr ⟨hn, List.nodup_singleton _, by
            rintro a ha b hb rfl
            rw [List.mem_singleton] at hb
            exact hm (hb ▸ ha)⟩,
          by simp [edge?, hf, hk, hi], by simp [hd], by simp [hd]⟩
      | false =>
        cases h
        have hd : Dropped i r.known? g.keys site := ⟨f, hf, hk, hm⟩
        exact ⟨[], rfl, by simp, by simp, by simp, fun _ => rfl, id,
          by simp [edge?, hf, hk, hp], by simp [hd], by simp⟩

theorem followSite_yields {site : CallSite} {e : Option Edge}
    (h : Yields (followSite i deeper g site) r w (g', e) r' w') :
    r' = r ∧ ∃ fs, Followed i deeper r.known? g [site] g' e.toList fs := by
  obtain ⟨f, r₁, w₁, hf, ht⟩ := h.bind_inv
  obtain ⟨rfl, rfl⟩ := frame?_yields hf
  cases hm : callee? i site with
  | none =>
    rw [← callee?, hm] at ht
    cases ht
    have hd (known : CallKey → Option NameSet) : ¬ Dropped i known g.keys site := by
      rintro ⟨f', hf', _⟩
      cases hm.symm.trans hf'
    exact ⟨rfl, [], rfl, by simp, by simp, by simp, fun _ => rfl, id,
      by simp [edge?, hm], by simp [hd], by simp [hd]⟩
  | some f =>
    rw [← callee?, hm] at ht
    cases ht
    exact ⟨rfl, followed_target hm rfl⟩

theorem followSites_yields (h : Yields (followSites i deeper g sites) r w (g', es) r' w') :
    r' = r ∧ ∃ fs, Followed i deeper r.known? g sites g' es fs := by
  induction sites generalizing g w es with
  | nil =>
    cases h
    exact ⟨rfl, [], .nil _⟩
  | cons site sites ih =>
    obtain ⟨⟨g₁, e⟩, r₁, w₁, hsite, hrest⟩ := h.bind_inv
    obtain ⟨rfl, fs₁, hf₁⟩ := followSite_yields hsite
    obtain ⟨⟨g₂, es₂⟩, r₂, w₂, hsites, hlast⟩ := hrest.bind_inv
    obtain ⟨heq, rfl, rfl⟩ := yields_pure.mp hlast
    cases heq
    obtain ⟨hr, fs₂, hf₂⟩ := ih hsites
    exact ⟨hr, fs₁ ++ fs₂, hf₁.append hf₂⟩

end

/-- The body under a key has a call that runs this one. -/
def Calls (i : Index) (r : Resolver) (k : CallKey) (f : Frame) : Prop :=
  ∃ s, r.summary? k = some s ∧ ∃ site ∈ s.calls, callee? i site = some f

theorem Calls.extend {k : CallKey} {f : Frame} (h : Calls i r k f) (he : r.Extends r') :
    Calls i r' k f := by
  obtain ⟨s, hs, h⟩ := h
  exact ⟨s, he.summary hs, h⟩

/-- A graph on the way; the bodies `pending` are taken up and not scanned yet. -/
structure Building (i : Index) (r : Resolver) (g : Collected) (pending : List Frame) : Prop where
  keys : g.keys = g.nodes.map (·.key) ++ pending.map Frame.key
  nodup : g.keys.Nodup
  fresh : ∀ k ∈ g.keys, r.known? k = none
  nodes : ∀ n ∈ g.nodes, ∃ s, r.summary? n.key = some s ∧ n.raised = s.raised ∧
    n.edges = s.calls.filterMap (edge? i r.known? g.keys)
  truncated : g.truncated = true ↔ ∃ n ∈ g.nodes, ∃ s, r.summary? n.key = some s ∧
    ∃ site ∈ s.calls, Dropped i r.known? g.keys site

/-- What scanning the bodies of `level` adds to a graph: the bodies `fs`, to be scanned next. -/
structure Grown (i : Index) (deeper : Bool) (level : List Frame) (r : Resolver) (g : Collected)
    (r' : Resolver) (g' : Collected) (fs : List Frame) : Prop where
  stored : r.Extends r'
  keys : g'.keys = g.keys ++ fs.map Frame.key
  next : g'.next = g.next ++ fs
  called : ∀ x ∈ fs, ∃ f ∈ level, Calls i r' f.key x
  shallow : deeper = false → fs = []
  deep : deeper = true → g'.truncated = false

section
variable {deeper : Bool} {g g' g'' : Collected} {f root : Frame}
  {level rest pending fs fs' : List Frame}

theorem Building.of_next (h : Building i r g pending) (next : List Frame) :
    Building i r { g with next := next } pending :=
  ⟨h.keys, h.nodup, h.fresh, h.nodes, h.truncated⟩

theorem Building.start (h : r.known? root.key = none) :
    Building i r (Collected.start root) [root] where
  keys := rfl
  nodup := List.nodup_singleton _
  fresh k hk := by
    rw [List.mem_singleton.mp hk]
    exact h
  nodes := by simp [Collected.start]
  truncated := by simp [Collected.start]

/- As for the calls of one body: a scanned body keeps its edges when keys come after. -/
theorem Building.settle (hb : Building i r g pending) (ht : deeper = true → g.truncated = false)
    {sites : List CallSite} {es : List Edge}
    (hf : Followed i deeper r.known? g sites g' es fs)
    {n : Node} {s : Summary} {site : CallSite} (hn : n ∈ g.nodes)
    (hs : r.summary? n.key = some s) (hsite : site ∈ s.calls) :
    edge? i r.known? g'.keys site = edge? i r.known? g.keys site ∧
      (Dropped i r.known? g'.keys site ↔ Dropped i r.known? g.keys site) := by
  cases deeper with
  | true =>
    have hd : ¬ Dropped i r.known? g.keys site := by
      intro hd
      have := hb.truncated.mpr ⟨n, hn, s, hs, site, hsite, hd⟩
      rw [ht rfl] at this
      cases this
    rw [hf.keys]
    exact ⟨edge?_append hd, fun hd' => hd'.of_append, fun hd' => absurd hd' hd⟩
  | false =>
    rw [hf.keys, hf.shallow rfl]
    simp

theorem Building.extend (hb : Building i r g pending) (he : r.Extends r') :
    Building i r' g pending where
  keys := hb.keys
  nodup := hb.nodup
  fresh := by rw [he.known]; exact hb.fresh
  nodes n hn := by
    obtain ⟨s, hs, h⟩ := hb.nodes n hn
    rw [he.known]
    exact ⟨s, he.summary hs, h⟩
  truncated := by
    rw [hb.truncated, he.known]
    constructor
    · rintro ⟨n, hn, s, hs, h⟩
      exact ⟨n, hn, s, he.summary hs, h⟩
    · rintro ⟨n, hn, s, hs, h⟩
      obtain ⟨s', hs', _⟩ := hb.nodes n hn
      cases (he.summary hs').symm.trans hs
      exact ⟨n, hn, s, hs', h⟩

theorem Building.kept (hb : Building i r g pending) (ht : g.truncated = false) {n : Node}
    {s : Summary} {site : CallSite} (hn : n ∈ g.nodes) (hs : r.summary? n.key = some s)
    (hsite : site ∈ s.calls) (hf : callee? i site = some f) :
    f.key ∈ g.keys ∨ (r.known? f.key).isSome := by
  by_contra hno
  obtain ⟨hout, hnone⟩ := not_or.mp hno
  rw [Option.not_isSome_iff_eq_none] at hnone
  have := hb.truncated.mpr ⟨n, hn, s, hs, site, hsite, f, hf, hnone, hout⟩
  rw [ht] at this
  cases this

theorem Building.scan (hb : Building i r g (f :: rest)) (ht : deeper = true → g.truncated = false)
    {s : Summary} {es : List Edge} (hs : r.summary? f.key = some s)
    (hf : Followed i deeper r.known? g s.calls g' es fs) :
    Building i r { g' with nodes := g'.nodes ++ [⟨f.key, s.raised, es⟩] } (rest ++ fs) where
  keys := by
    rw [hf.keys, hb.keys, hf.nodes]
    simp
  nodup := hf.nodup hb.nodup
  fresh k hk := by
    rw [hf.keys] at hk
    rcases List.mem_append.mp hk with hk | hk
    · exact hb.fresh k hk
    · obtain ⟨x, hx, rfl⟩ := List.mem_map.mp hk
      exact (hf.called x hx).1
  nodes n hn := by
    rw [hf.nodes] at hn
    rcases List.mem_append.mp hn with hn | hn
    · obtain ⟨s', hs', hraised, hedges⟩ := hb.nodes n hn
      refine ⟨s', hs', hraised, hedges.trans ?_⟩
      exact List.filterMap_congr fun site hsite => (hb.settle ht hf hn hs' hsite).1.symm
    · rw [List.mem_singleton.mp hn]
      exact ⟨s, hs, rfl, hf.edges⟩
  truncated := by
    rw [hf.truncated, hb.truncated, hf.nodes]
    constructor
    · rintro (⟨n, hn, s', hs', site, hsite, hd⟩ | ⟨site, hsite, hd⟩)
      · exact ⟨n, List.mem_append_left _ hn, s', hs', site, hsite,
          (hb.settle ht hf hn hs' hsite).2.mpr hd⟩
      · exact ⟨_, List.mem_append_right _ (List.mem_singleton_self _), s, hs, site, hsite, hd⟩
    · rintro ⟨n, hn, s', hs', site, hsite, hd⟩
      rcases List.mem_append.mp hn with hn | hn
      · exact Or.inl ⟨n, hn, s', hs', site, hsite, (hb.settle ht hf hn hs' hsite).2.mp hd⟩
      · rw [List.mem_singleton.mp hn] at hs'
        cases hs.symm.trans hs'
        exact Or.inr ⟨site, hsite, hd⟩

theorem collectNode_yields (h : Yields (collectNode i c deeper g f) r w g' r' w')
    (hb : Building i r g (f :: rest)) (ht : deeper = true → g.truncated = false) :
    ∃ fs, Building i r' g' (rest ++ fs) ∧ Grown i deeper [f] r g r' g' fs := by
  obtain ⟨s, r₁, w₁, hsum, h₁⟩ := h.bind_inv
  obtain ⟨he, hs⟩ := summaryOf_yields hsum
  obtain ⟨⟨g₂, es⟩, r₂, w₂, hsites, h₂⟩ := h₁.bind_inv
  obtain ⟨rfl, rfl, rfl⟩ := yields_pure.mp h₂
  obtain ⟨rfl, fs, hf⟩ := followSites_yields hsites
  refine ⟨fs, (hb.extend he).scan ht hs hf, he, hf.keys, hf.next, ?_, hf.shallow, ?_⟩
  · intro x hx
    obtain ⟨_, site, hsite, hx⟩ := hf.called x hx
    exact ⟨f, List.mem_singleton_self _, s, hs, site, hsite, hx⟩
  · intro hd
    rw [Bool.eq_false_iff]
    intro htr
    rcases hf.truncated.mp htr with htr | ⟨site, hsite, hdrop⟩
    · rw [ht hd] at htr
      cases htr
    · exact hf.deep hd site hsite hdrop

theorem Grown.append (h : Grown i deeper [f] r g r' g' fs)
    (h' : Grown i deeper level r' g' r'' g'' fs') :
    Grown i deeper (f :: level) r g r'' g'' (fs ++ fs') where
  stored := h.stored.trans h'.stored
  keys := by rw [h'.keys, h.keys, List.map_append, List.append_assoc]
  next := by rw [h'.next, h.next, List.append_assoc]
  called x hx := by
    rcases List.mem_append.mp hx with hx | hx
    · obtain ⟨f', hf', hc⟩ := h.called x hx
      rw [List.mem_singleton.mp hf'] at hc
      exact ⟨f, List.mem_cons_self, hc.extend h'.stored⟩
    · obtain ⟨f', hf', hc⟩ := h'.called x hx
      exact ⟨f', List.mem_cons_of_mem _ hf', hc⟩
  shallow hd := by rw [h.shallow hd, h'.shallow hd]; rfl
  deep := h'.deep

/- The induction is on the level; what a body adds goes behind the rest of what is pending. -/
theorem collectLevel_yields (h : Yields (level.foldlM (collectNode i c deeper) g) r w g' r' w')
    (hb : Building i r g (level ++ rest)) (ht : deeper = true → g.truncated = false) :
    ∃ fs, Building i r' g' (rest ++ fs) ∧ Grown i deeper level r g r' g' fs := by
  induction level generalizing g r w rest with
  | nil =>
    obtain ⟨rfl, rfl, rfl⟩ := yields_pure.mp h
    refine ⟨[], by simpa using hb, .refl _, by simp, by simp, by simp, fun _ => rfl, ht⟩
  | cons f level ih =>
    rw [List.foldlM_cons] at h
    rw [List.cons_append] at hb
    obtain ⟨g₁, r₁, w₁, hnode, hrest⟩ := h.bind_inv
    obtain ⟨fs, hb₁, hg₁⟩ := collectNode_yields hnode hb ht
    rw [List.append_assoc] at hb₁
    obtain ⟨fs', hb₂, hg₂⟩ := ih hrest hb₁ hg₁.deep
    exact ⟨fs ++ fs', by rwa [List.append_assoc] at hb₂, hg₁.append hg₂⟩

/- Either no body is pending, or one level is scanned and the collecting goes on below it. -/
theorem collectLevels_succ {levels : Nat}
    (h : Yields (collectLevels i c (levels+1) level g) r w g' r' w') (hb : Building i r g level)
    (ht : g.truncated = false) :
    (level = [] ∧ g' = g ∧ r' = r ∧ w' = w) ∨ level ≠ [] ∧ ∃ g₁ r₁ w₁,
      Yields (level.foldlM (collectNode i c (0 < levels)) { g with next := [] }) r w g₁ r₁ w₁ ∧
      Building i r₁ g₁ g₁.next ∧
      Grown i (0 < levels) level r { g with next := [] } r₁ g₁ g₁.next ∧
      Yields (collectLevels i c levels g₁.next g₁) r₁ w₁ g' r' w' := by
  rw [collectLevels] at h
  split at h
  · next he =>
    obtain ⟨rfl, rfl, rfl⟩ := yields_pure.mp h
    exact Or.inl ⟨List.isEmpty_iff.mp he, rfl, rfl, rfl⟩
  · next hne =>
    obtain ⟨g₁, r₁, w₁, hlevel, hrest⟩ := h.bind_inv
    have hb₀ : Building i r { g with next := [] } (level ++ []) := by
      rw [List.append_nil]
      exact hb.of_next []
    obtain ⟨fs, hb₁, hg₁⟩ := collectLevel_yields hlevel hb₀ (fun _ => ht)
    have hnext : g₁.next = fs := hg₁.next
    rw [List.nil_append, ← hnext] at hb₁
    rw [← hnext] at hg₁
    exact Or.inr ⟨fun he => hne (List.isEmpty_iff.mpr he), g₁, r₁, w₁, hlevel, hb₁, hg₁, hrest⟩

theorem collectLevels_yields {levels : Nat}
    (h : Yields (collectLevels i c levels level g) r w g' r' w') (hb : Building i r g level)
    (ht : 0 < levels → g.truncated = false) (hl : levels = 0 → level = []) :
    Building i r' g' [] ∧ r.Extends r' ∧ g.keys <+: g'.keys := by
  induction levels generalizing level g r w with
  | zero =>
    obtain ⟨rfl, rfl, rfl⟩ := yields_pure.mp h
    rw [hl rfl] at hb
    exact ⟨hb, .refl _, List.prefix_rfl⟩
  | succ levels ih =>
    rcases collectLevels_succ h hb (ht (by omega)) with
      ⟨rfl, rfl, rfl, _⟩ | ⟨_, g₁, r₁, w₁, _, hb₁, hg₁, hrest⟩
    · exact ⟨hb, .refl _, List.prefix_rfl⟩
    · obtain ⟨hb₂, he, hp⟩ := ih hrest hb₁ (fun hd => hg₁.deep (by simpa using hd))
        (fun hz => hg₁.shallow (by simp [hz]))
      refine ⟨hb₂, hg₁.stored.trans he, List.IsPrefix.trans ?_ hp⟩
      rw [hg₁.keys]
      exact List.prefix_append _ _

/-- The graph of a query: all its bodies are scanned, and the root comes first. -/
theorem collectGraph_yields (h : Yields (collectGraph i c root) r w g r' w')
    (hd : 1 ≤ c.maxCallDepth) (hr : r.known? root.key = none) :
    Building i r' g [] ∧ r.Extends r' ∧ g.keys.head? = some root.key := by
  obtain ⟨hb, he, more, hk⟩ := collectLevels_yields h (.start hr) (fun _ => rfl) (by omega)
  exact ⟨hb, he, by rw [← hk]; rfl⟩

end

end ContractAudit.Throws
