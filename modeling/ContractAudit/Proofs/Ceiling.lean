import ContractAudit.Proofs.Levels

/-! The depth ceiling of a query. Main statement: with a fresh resolver the graph has exactly the
bodies that fewer calls than the ceiling lead to, its flag tells whether a call leads out of it, and
the answer is the least solution on these bodies; so answers grow with the ceiling and stay once it
is above the number of bodies. -/
namespace ContractAudit.Throws
variable {i : Index} {c : Config} {w : Workspace} {root : Frame} {k : CallKey}

/-- What a fresh resolver collects below a method with the ceiling `d`, and what it stores. -/
def fresh (i : Index) (c : Config) (w : Workspace) (root : Frame) (d : Nat) :
    Collected × Resolver :=
  (((collectGraph i { c with maxCallDepth := d } root).run .new).run w).1

/-- The answer of a fresh resolver with the ceiling `d`. -/
def freshAnswer (i : Index) (c : Config) (w : Workspace) (owner method : String) (d : Nat) :
    NameSet :=
  (((methodThrows i { c with maxCallDepth := d } owner method).run .new).run w).1.1

/-- The body under a key, as it is come to from a method with some ceiling. -/
def Below (i : Index) (c : Config) (w : Workspace) (root : Frame) (k : CallKey) (s : Summary) :
    Prop :=
  ∃ d, (fresh i c w root d).2.Stores k s

/-- The keys that fewer than `d` calls lead to. -/
def within (i : Index) (c : Config) (w : Workspace) (root : Frame) (d : Nat) : Set CallKey :=
  { k | ∃ n < d, Chain i (Below i c w root) root.key n k }

/-- The keys that calls lead to. -/
def reachable (i : Index) (c : Config) (w : Workspace) (root : Frame) : Set CallKey :=
  { k | ∃ n, Chain i (Below i c w root) root.key n k }

section
variable {d d' n : Nat} {s : Summary}

theorem collectLevels_ceiling (d levels : Nat) (level : List Frame) (g : Collected) :
    collectLevels i { c with maxCallDepth := d } levels level g =
      collectLevels i c levels level g := by
  induction levels generalizing level g with
  | zero => rfl
  | succ levels ih =>
    simp only [collectLevels, ih]
    rfl

theorem fresh_yields (i : Index) (c : Config) (w : Workspace) (root : Frame) (d : Nat) :
    ∃ w', Yields (collectLevels i c d [root] (Collected.start root)) .new w
      (fresh i c w root d).1 (fresh i c w root d).2 w' := by
  rw [← collectLevels_ceiling d]
  exact ⟨_, Yields.of_run _ _ _⟩

theorem fresh_building (i : Index) (c : Config) (w : Workspace) (root : Frame) (hd : 1 ≤ d) :
    Building i (fresh i c w root d).2 (fresh i c w root d).1 [] ∧
      (fresh i c w root d).2.memo = [] ∧ (fresh i c w root d).1.keys.head? = some root.key := by
  obtain ⟨w', h⟩ := fresh_yields i c w root d
  obtain ⟨hb, he, more, hk⟩ :=
    collectLevels_yields h (.start rfl) (fun _ => rfl) (fun hz => by omega)
  exact ⟨hb, he.memo, by rw [← hk]; rfl⟩

theorem fresh_succ : (fresh i c w root d).2.Extends (fresh i c w root (d+1)).2 := by
  obtain ⟨w', h⟩ := fresh_yields i c w root d
  obtain ⟨w'', h'⟩ := fresh_yields i c w root (d+1)
  have hb : Building i .new (Collected.start root) [root] := .start rfl
  cases d with
  | zero =>
    obtain ⟨_, hr, _⟩ := yields_pure.mp h
    rw [hr]
    exact (collectLevels_yields h' hb (fun _ => rfl) (by omega)).2.1
  | succ d => exact collectLevels_deeper h h' hb rfl

theorem fresh_mono (h : d ≤ d') : (fresh i c w root d).2.Extends (fresh i c w root d').2 := by
  induction d', h using Nat.le_induction with
  | base => exact .refl _
  | succ d' _ ih => exact ih.trans fresh_succ

theorem below_iff (hk : (fresh i c w root d).2.Stores k s) {s' : Summary} :
    Below i c w root k s' ↔ (fresh i c w root d).2.Stores k s' := by
  constructor
  · rintro ⟨d', hs'⟩
    have h := (fresh_mono (Nat.le_max_left d d')).summary hk
    cases h.symm.trans ((fresh_mono (Nat.le_max_right d d')).summary hs')
    exact hk
  · intro h
    exact ⟨d, h⟩

/- A chain is finite, so some ceiling stores all its bodies. -/
theorem chain_below (h : Chain i (Below i c w root) root.key n k) (d : Nat) :
    ∃ d' ≥ d, Chain i (fresh i c w root d').2.Stores root.key n k := by
  induction h with
  | here => exact ⟨d, Nat.le_refl _, .here⟩
  | call _ hs hsite hf ih =>
    obtain ⟨d₁, hd₁, hc⟩ := ih
    obtain ⟨d₂, hs⟩ := hs
    refine ⟨max d₁ d₂, by omega, .call (hc.mono ?_) ?_ hsite hf⟩
    · intro _ _ h
      exact (fresh_mono (Nat.le_max_left d₁ d₂)).summary h
    · exact (fresh_mono (Nat.le_max_right d₁ d₂)).summary hs

theorem mem_fresh_keys (hd : 1 ≤ d) :
    k ∈ (fresh i c w root d).1.keys ↔ k ∈ within i c w root d := by
  obtain ⟨d, rfl⟩ := Nat.exists_eq_add_of_le' hd
  obtain ⟨w', h⟩ := fresh_yields i c w root (d+1)
  have hr := (Reached.start rfl).run h (.start rfl) rfl Settled.new
  have hnone : (fresh i c w root (d+1)).2.known? k = none := by
    simp [Resolver.known?, (fresh_building i c w root hd).2.1]
  constructor
  · intro hk
    obtain ⟨_, n, hn, hc⟩ := (hr _ (.refl _) k).mp hk
    exact ⟨n, by omega, hc.mono fun _ _ hs => ⟨_, hs⟩⟩
  · rintro ⟨n, hn, hc⟩
    obtain ⟨d', hd', hc⟩ := chain_below hc (d+1)
    exact (hr _ (fresh_mono hd') k).mpr ⟨hnone, n, by omega, hc⟩

end

/-- A graph has one node for each key `inside`, the root's first: with what the body raises, and
with an edge for each call to such a key. Its flag tells whether some call leads elsewhere. -/
structure ExactGraph (i : Index) (body : CallKey → Summary → Prop) (inside : Set CallKey)
    (root : CallKey) (g : Collected) : Prop where
  once : (g.nodes.map (·.key)).Nodup
  first : (g.nodes.map (·.key)).head? = some root
  keys : ∀ k, k ∈ g.nodes.map (·.key) ↔ k ∈ inside
  nodes : ∀ n ∈ g.nodes, ∃ s, body n.key s ∧ n.raised = s.raised ∧
    n.edges = s.calls.filterMap fun site => (callee? i site).bind fun f =>
      ((g.nodes.map (·.key)).idxOf? f.key).map fun p => ⟨.node p, site.caught⟩
  truncated : g.truncated = true ↔ ∃ n ∈ g.nodes, ∃ s, body n.key s ∧ ∃ site ∈ s.calls,
    ∃ f, callee? i site = some f ∧ f.key ∉ inside

theorem fresh_exactGraph (i : Index) (c : Config) (w : Workspace) (root : Frame) {d : Nat}
    (hd : 1 ≤ d) :
    ExactGraph i (Below i c w root) (within i c w root d) root.key (fresh i c w root d).1 := by
  obtain ⟨hb, hm, hroot⟩ := fresh_building i c w root hd
  have hknown : (fresh i c w root d).2.known? = fun _ => none := by
    funext k
    simp [Resolver.known?, hm]
  have hin (k : CallKey) : k ∈ (fresh i c w root d).1.nodes.map (·.key) ↔
      k ∈ within i c w root d := by
    rw [← hb.keys_eq]
    exact mem_fresh_keys hd
  constructor
  · rw [← hb.keys_eq]
    exact hb.nodup
  · rw [← hb.keys_eq]
    exact hroot
  · exact hin
  · intro n hn
    obtain ⟨s, hs, hraised, hedges⟩ := hb.nodes n hn
    refine ⟨s, ⟨d, hs⟩, hraised, ?_⟩
    rw [hedges, hknown, ← hb.keys_eq]
    rfl
  · rw [hb.truncated]
    constructor
    · rintro ⟨n, hn, s, hs, site, hsite, f, hf, _, hout⟩
      exact ⟨n, hn, s, ⟨d, hs⟩, site, hsite, f, hf, fun h => hout ((mem_fresh_keys hd).mpr h)⟩
    · rintro ⟨n, hn, s, hs, site, hsite, f, hf, hout⟩
      obtain ⟨s', hs', _⟩ := hb.nodes n hn
      exact ⟨n, hn, s, (below_iff hs').mp hs, site, hsite, f, hf, by rw [hknown],
        fun h => hout ((mem_fresh_keys hd).mp h)⟩

theorem mem_freshAnswer {owner method : String} {m : MethodInfo} {d : Nat} (hd : 1 ≤ d)
    (hm : i.method? owner method = some m) (o : String) :
    o ∈ freshAnswer i c w owner method d ↔
      o ∈ least i (Below i c w ⟨owner, m⟩) (within i c w ⟨owner, m⟩ d) (Frame.mk owner m).key := by
  obtain ⟨hb, hmemo, hroot⟩ := fresh_building i c w ⟨owner, m⟩ hd
  have hanswer : freshAnswer i c w owner method d =
      (Graph.outcomes i (fresh i c w ⟨owner, m⟩ d).1.nodes).getD 0 ∅ := by
    have h := Yields.of_run (methodThrows i { c with maxCallDepth := d } owner method) .new w
    rcases methodThrows_some hd h hm with ⟨hk, _⟩ | ⟨_, g, r₁, w₁, hg, ha, _⟩
    · cases hk
    · rw [freshAnswer, ha, fresh, hg]
  rw [hanswer, Graph.mem_outcomes]
  rw [List.head?_eq_getElem?] at hroot
  apply hb.raises_iff _ (fun _ => (mem_fresh_keys hd).mp) _ _ hroot
  · intro k hk s
    obtain ⟨n, hn, rfl⟩ := hb.mem_keys.mp hk
    obtain ⟨s', hs', _⟩ := hb.nodes n hn
    exact below_iff hs'
  · intro k s hk
    rw [Resolver.known?, hmemo] at hk
    cases hk
  · intro k _ s _ site _ f _ hfin _
    exact (mem_fresh_keys hd).mpr hfin

theorem fresh_scanned (i : Index) (c : Config) (w : Workspace) (root : Frame) (d : Nat) :
    Scanned i c root w (fresh i c w root d).2 := by
  obtain ⟨w', h⟩ := fresh_yields i c w root d
  have hnone : Scanned i c root w .new := by
    intro k s hk
    cases hk
  refine (scanned_keeps.collectLevels ⟨hnone, .refl w⟩ ?_ (.start rfl) (fun _ => rfl) h).1
  intro f hf
  exact Or.inl (List.mem_singleton.mp hf)

theorem below_scanned {s : Summary} (h : Below i c w root k s) :
    ∃ f, f.key = k ∧ (f = root ∨ ∃ k' s', Below i c w root k' s' ∧
      ∃ site ∈ s'.calls, callee? i site = some f) ∧
      ∃ w', Grows w w' ∧ ((scanMethod i c f).run w').1 = s := by
  obtain ⟨d, hs⟩ := h
  obtain ⟨f, hk, hdue, hscan⟩ := fresh_scanned i c w root d k s hs
  refine ⟨f, hk, hdue.imp_right ?_, hscan⟩
  rintro ⟨k', s', hs', hcall⟩
  exact ⟨k', s', ⟨d, hs'⟩, hcall⟩

theorem within_mono {d d' : Nat} (h : d ≤ d') :
    within i c w root d ⊆ within i c w root d' := by
  rintro k ⟨n, hn, hc⟩
  exact ⟨n, by omega, hc⟩

theorem within_eq_reachable {d : Nat} (h : (reachable i c w root).encard < d) :
    within i c w root d = reachable i c w root := by
  apply Set.Subset.antisymm
  · rintro k ⟨n, _, hc⟩
    exact ⟨n, hc⟩
  · rintro k ⟨n, hc⟩
    obtain ⟨m, hm⟩ := hc.distance
    have hlt : (m : ℕ∞) < d := hm.lt_encard.trans h
    exact ⟨m, by exact_mod_cast hlt, hm.1⟩

theorem fresh_whole {d : Nat} (hd : 1 ≤ d) (h : (reachable i c w root).encard < d) :
    (fresh i c w root d).1.truncated = false := by
  have hg := fresh_exactGraph i c w root hd
  rw [Bool.eq_false_iff]
  intro ht
  obtain ⟨n, hn, s, hs, site, hsite, f, hf, hout⟩ := hg.truncated.mp ht
  obtain ⟨m, _, hc⟩ := (hg.keys n.key).mp (List.mem_map_of_mem hn)
  rw [within_eq_reachable h] at hout
  exact hout ⟨m+1, .call hc hs hsite hf⟩

/- The nodes of a whole graph are all there is. -/
theorem encard_reachable_le (i : Index) (c : Config) (w : Workspace) (root : Frame) {d : Nat}
    (hd : 1 ≤ d) (ht : (fresh i c w root d).1.truncated = false) :
    (reachable i c w root).encard ≤ (fresh i c w root d).1.nodes.length := by
  have hg := fresh_exactGraph i c w root hd
  have hsub : reachable i c w root ⊆ ((fresh i c w root d).1.nodes.map (·.key)).toFinset := by
    rintro k ⟨n, hc⟩
    rw [Finset.mem_coe, List.mem_toFinset]
    induction hc with
    | here => exact List.mem_of_head? hg.first
    | @call n k s site f _ hs hsite hf ih =>
      obtain ⟨node, hnode, rfl⟩ := List.mem_map.mp ih
      by_contra hout
      rw [hg.keys] at hout
      have := hg.truncated.mpr ⟨node, hnode, s, hs, site, hsite, f, hf, hout⟩
      rw [ht] at this
      cases this
  calc (reachable i c w root).encard
      ≤ (((fresh i c w root d).1.nodes.map (·.key)).toFinset : Set CallKey).encard :=
        Set.encard_le_encard hsub
    _ = ((fresh i c w root d).1.nodes.map (·.key)).toFinset.card :=
        Set.encard_coe_eq_coe_finsetCard _
    _ ≤ (fresh i c w root d).1.nodes.length := by
        exact_mod_cast (List.toFinset_card_le _).trans_eq (List.length_map _)

/-- For every ceiling the graph of a fresh resolver is the call graph cut off at that distance, and
the answer is the least solution there. Every body is what scanning the method or a callee gives. A
higher ceiling answers no less, and above the number of bodies all ceilings answer the same. -/
theorem ceiling_cuts_by_distance (i : Index) (c : Config) (w : Workspace) {owner method : String}
    {m : MethodInfo} (hm : i.method? owner method = some m) :
    (∀ d, 1 ≤ d →
      ExactGraph i (Below i c w ⟨owner, m⟩) (within i c w ⟨owner, m⟩ d) (Frame.mk owner m).key
        (fresh i c w ⟨owner, m⟩ d).1 ∧
      IsLeast { L | Solves i (Below i c w ⟨owner, m⟩) (within i c w ⟨owner, m⟩ d) L }
        (least i (Below i c w ⟨owner, m⟩) (within i c w ⟨owner, m⟩ d)) ∧
      { o | o ∈ freshAnswer i c w owner method d } =
        least i (Below i c w ⟨owner, m⟩) (within i c w ⟨owner, m⟩ d) (Frame.mk owner m).key) ∧
    (∀ k s, Below i c w ⟨owner, m⟩ k s → ∃ f, f.key = k ∧
      (f = ⟨owner, m⟩ ∨ ∃ k' s', Below i c w ⟨owner, m⟩ k' s' ∧
        ∃ site ∈ s'.calls, callee? i site = some f) ∧
      ∃ w', Grows w w' ∧ ((scanMethod i c f).run w').1 = s) ∧
    (∀ d d', 1 ≤ d → d ≤ d' →
      ∀ o ∈ freshAnswer i c w owner method d, o ∈ freshAnswer i c w owner method d') ∧
    ∀ d d' : Nat, (reachable i c w ⟨owner, m⟩).encard < d →
      (reachable i c w ⟨owner, m⟩).encard < d' →
      (fresh i c w ⟨owner, m⟩ d).1.truncated = false ∧
        freshAnswer i c w owner method d = freshAnswer i c w owner method d' := by
  refine ⟨?_, fun _ _ => below_scanned, ?_, ?_⟩
  · intro d hd
    exact ⟨fresh_exactGraph i c w _ hd, least_isLeast, Set.ext (mem_freshAnswer hd hm)⟩
  · intro d d' hd hle o ho
    rw [mem_freshAnswer (Nat.le_trans hd hle) hm]
    exact ((mem_freshAnswer hd hm o).mp ho).mono (fun _ _ h => h) (within_mono hle)
  · intro d d' h h'
    have hpos {e : Nat} (he : (reachable i c w ⟨owner, m⟩).encard < e) : 1 ≤ e := by
      exact_mod_cast Order.one_le_iff_pos.mpr (lt_of_le_of_lt zero_le he)
    refine ⟨fresh_whole (hpos h) h, NameSet.ext ?_⟩
    intro o
    rw [mem_freshAnswer (hpos h) hm, mem_freshAnswer (hpos h') hm, within_eq_reachable h,
      within_eq_reachable h']

/- From `f` one call leads to `g` and two lead to `h`. -/
theorem ceiling_cuts_by_distance_sample :
    Sample.index.method? "A" "f" = some Sample.first ∧
    ExactGraph Sample.index
      (Below Sample.index Sample.honoring Sample.workspace ⟨"A", Sample.first⟩)
      (within Sample.index Sample.honoring Sample.workspace ⟨"A", Sample.first⟩ 2) ⟨"a", "a", "f"⟩
      (fresh Sample.index Sample.honoring Sample.workspace ⟨"A", Sample.first⟩ 2).1 ∧
    freshAnswer Sample.index Sample.honoring Sample.workspace "A" "f" 2 = ∅ ∧
    (∀ o ∈ freshAnswer Sample.index Sample.honoring Sample.workspace "A" "f" 2,
      o ∈ freshAnswer Sample.index Sample.honoring Sample.workspace "A" "f" 4) ∧
    freshAnswer Sample.index Sample.honoring Sample.workspace "A" "f" 4 = NameSet.ofList ["E"] ∧
    freshAnswer Sample.index Sample.honoring Sample.workspace "A" "f" 4 =
      freshAnswer Sample.index Sample.honoring Sample.workspace "A" "f" 5 := by
  have hm : Sample.index.method? "A" "f" = some Sample.first := by decide +kernel
  have hall := ceiling_cuts_by_distance Sample.index Sample.honoring Sample.workspace hm
  have hnodes : (fresh Sample.index Sample.honoring Sample.workspace
      ⟨"A", Sample.first⟩ 3).1.nodes.length = 3 := by decide +kernel
  have hcount :
      (reachable Sample.index Sample.honoring Sample.workspace ⟨"A", Sample.first⟩).encard ≤ 3 := by
    have hle := encard_reachable_le Sample.index Sample.honoring Sample.workspace
      ⟨"A", Sample.first⟩ (d := 3) (by decide) (by decide +kernel)
    rwa [hnodes] at hle
  have hbelow {d : Nat} (hd : 3 < d) :
      (reachable Sample.index Sample.honoring Sample.workspace ⟨"A", Sample.first⟩).encard < d :=
    lt_of_le_of_lt hcount (by exact_mod_cast hd)
  exact ⟨hm, (hall.1 2 (by decide)).1, by decide +kernel, hall.2.2.1 2 4 (by decide) (by decide),
    by decide +kernel, (hall.2.2.2 4 5 (hbelow (by decide)) (hbelow (by decide))).2⟩

end ContractAudit.Throws
