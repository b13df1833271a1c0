import ContractAudit.Proofs.CallGraph
import ContractAudit.Proofs.Propagation
import Mathlib.Order.Bounds.Basic
import Mathlib.Order.SetNotation

/-! The exceptions of bodies that call each other, as the least solution of equations over call
keys. Main statement: what is worked out for the nodes of a collected graph is that solution. -/
namespace ContractAudit.Throws
variable {i : Index} {r : Resolver} {g : Collected} {o : String} {k : CallKey}
  {body body' : CallKey → Summary → Prop} {inside : Set CallKey}

/-- A family of sets solves the equations of the bodies under the keys `inside`: it has what each
body raises, and of each call to such a key what the call lets through. -/
def Solves (i : Index) (body : CallKey → Summary → Prop) (inside : Set CallKey)
    (L : CallKey → Set String) : Prop :=
  ∀ k ∈ inside, ∀ s, body k s → (∀ o ∈ s.raised, o ∈ L k) ∧
    ∀ site ∈ s.calls, ∀ f, callee? i site = some f → f.key ∈ inside →
      ∀ o ∈ L f.key, (∀ t ∈ site.caught, i.isSubtype o t = false) → o ∈ L k

/-- An exception comes out of the body under a key. -/
inductive Outcome (i : Index) (body : CallKey → Summary → Prop) (inside : Set CallKey)
    (o : String) : CallKey → Prop where
  | raised {k : CallKey} {s : Summary} : k ∈ inside → body k s → o ∈ s.raised →
      Outcome i body inside o k
  | call {k : CallKey} {s : Summary} {site : CallSite} {f : Frame} : k ∈ inside → body k s →
      site ∈ s.calls → callee? i site = some f → f.key ∈ inside →
      (∀ t ∈ site.caught, i.isSubtype o t = false) → Outcome i body inside o f.key →
      Outcome i body inside o k

/-- The sets of all outcomes. -/
def least (i : Index) (body : CallKey → Summary → Prop) (inside : Set CallKey) :
    CallKey → Set String :=
  fun k => { o | Outcome i body inside o k }

theorem least_isLeast :
    IsLeast { L | Solves i body inside L } (least i body inside) := by
  constructor
  · intro k hk s hs
    exact ⟨fun o ho => .raised hk hs ho,
      fun site hsite f hf hin o ho pass => .call hk hs hsite hf hin pass ho⟩
  · intro L hL k o ho
    induction ho with
    | raised hk hs ho => exact (hL _ hk _ hs).1 _ ho
    | call hk hs hsite hf hin pass _ ih => exact (hL _ hk _ hs).2 _ hsite _ hf hin _ ih pass

theorem Outcome.mono {inside' : Set CallKey} (h : Outcome i body inside o k)
    (hbody : ∀ k s, body k s → body' k s) (hin : inside ⊆ inside') :
    Outcome i body' inside' o k := by
  induction h with
  | raised hk hs ho => exact .raised (hin hk) (hbody _ _ hs) ho
  | call hk hs hsite hf hf' pass _ ih =>
    exact .call (hin hk) (hbody _ _ hs) hsite hf (hin hf') pass ih

theorem edge?_eq_some {known : CallKey → Option NameSet} {keys : List CallKey}
    {site : CallSite} {e : Edge} : edge? i known keys site = some e ↔
      ∃ f, callee? i site = some f ∧ e.caught = site.caught ∧
        ((∃ s, known f.key = some s ∧ e.target = .settled s) ∨
          known f.key = none ∧ ∃ p, keys.idxOf? f.key = some p ∧ e.target = .node p) := by
  obtain ⟨t, caught⟩ := e
  unfold edge?
  cases callee? i site with
  | none => simp
  | some f =>
    cases hk : known f.key with
    | some s =>
      simp only [Option.bind_some, hk, Option.some.injEq, Edge.mk.injEq, exists_eq_left']
      grind
    | none =>
      simp only [Option.bind_some, hk, Option.map_eq_some_iff, Edge.mk.injEq, Option.some.injEq,
        exists_eq_left', reduceCtorEq, false_and, exists_false, false_or, true_and]
      grind

theorem Building.keys_eq (hb : Building i r g []) : g.keys = g.nodes.map (·.key) := by
  rw [hb.keys, List.map_nil, List.append_nil]

theorem Building.mem_keys (hb : Building i r g []) : k ∈ g.keys ↔ ∃ n ∈ g.nodes, n.key = k := by
  rw [hb.keys_eq, List.mem_map]

theorem Building.node_at (hb : Building i r g []) {p : Nat} (hp : g.keys[p]? = some k) :
    ∃ n s, g.nodes[p]? = some n ∧ n.key = k ∧ r.summary? k = some s ∧ n.raised = s.raised ∧
      n.edges = s.calls.filterMap (edge? i r.known? g.keys) := by
  rw [hb.keys_eq, List.getElem?_map, Option.map_eq_some_iff] at hp
  obtain ⟨n, hn, rfl⟩ := hp
  obtain ⟨s, hs, h⟩ := hb.nodes n (List.mem_of_getElem? hn)
  exact ⟨n, s, hn, rfl, hs, h⟩

section
variable {s : Summary} {n : Node} {known : CallKey → Option NameSet} {keys : List CallKey}

/- The edges of a node that lead to what is known are the calls of bodies that are known. -/
theorem exists_settled_edge (hedges : n.edges = s.calls.filterMap (edge? i known keys))
    {t : NameSet} :
    (∃ e ∈ n.edges, e.target = .settled t ∧ isCaught i e.caught o = false) ↔
      ∃ site ∈ s.calls, ∃ f, callee? i site = some f ∧ known f.key = some t ∧
        ∀ t ∈ site.caught, i.isSubtype o t = false := by
  rw [hedges]
  constructor
  · rintro ⟨e, he, ht, pass⟩
    obtain ⟨site, hsite, he⟩ := List.mem_filterMap.mp he
    obtain ⟨f, hf, hc, ⟨t', hk, ht'⟩ | ⟨_, q, _, ht'⟩⟩ := edge?_eq_some.mp he
    · cases ht.symm.trans ht'
      exact ⟨site, hsite, f, hf, hk, Graph.isCaught_eq_false.mp (hc ▸ pass)⟩
    · cases ht.symm.trans ht'
  · rintro ⟨site, hsite, f, hf, hk, pass⟩
    refine ⟨⟨.settled t, site.caught⟩, List.mem_filterMap.mpr ⟨site, hsite, ?_⟩, rfl,
      Graph.isCaught_eq_false.mpr pass⟩
    exact edge?_eq_some.mpr ⟨f, hf, rfl, Or.inl ⟨t, hk, rfl⟩⟩

/- Those that lead to a node are the calls of the body whose key stands there. -/
theorem exists_node_edge (hedges : n.edges = s.calls.filterMap (edge? i known keys))
    (hnodup : keys.Nodup) {q : Nat} :
    (∃ e ∈ n.edges, e.target = .node q ∧ isCaught i e.caught o = false) ↔
      ∃ site ∈ s.calls, ∃ f, callee? i site = some f ∧ known f.key = none ∧
        keys[q]? = some f.key ∧ ∀ t ∈ site.caught, i.isSubtype o t = false := by
  rw [hedges]
  constructor
  · rintro ⟨e, he, ht, pass⟩
    obtain ⟨site, hsite, he⟩ := List.mem_filterMap.mp he
    obtain ⟨f, hf, hc, ⟨t, _, ht'⟩ | ⟨hk, q', hq, ht'⟩⟩ := edge?_eq_some.mp he
    · cases ht.symm.trans ht'
    · cases ht.symm.trans ht'
      exact ⟨site, hsite, f, hf, hk, (idxOf?_eq_some_iff_of_nodup hnodup).mp hq,
        Graph.isCaught_eq_false.mp (hc ▸ pass)⟩
  · rintro ⟨site, hsite, f, hf, hk, hq, pass⟩
    refine ⟨⟨.node q, site.caught⟩, List.mem_filterMap.mpr ⟨site, hsite, ?_⟩, rfl,
      Graph.isCaught_eq_false.mpr pass⟩
    have hplace := (idxOf?_eq_some_iff_of_nodup hnodup).mpr hq
    exact edge?_eq_some.mpr ⟨f, hf, rfl, Or.inr ⟨hk, q, hplace, rfl⟩⟩

end

/-- In a collected graph a node raises what comes out of the body under its key, provided that this
is so of what was known before and that no call to a key `inside` was dropped. -/
theorem Building.raises_iff (hb : Building i r g [])
    (hbody : ∀ k ∈ g.keys, ∀ s, body k s ↔ r.summary? k = some s)
    (hin : ∀ k ∈ g.keys, k ∈ inside)
    (hknown : ∀ k s, r.known? k = some s →
      k ∈ inside ∧ ∀ o, o ∈ s ↔ Outcome i body inside o k)
    (hkeep : ∀ k ∈ g.keys, ∀ s, r.summary? k = some s → ∀ site ∈ s.calls, ∀ f,
      callee? i site = some f → f.key ∈ inside → r.known? f.key = none → f.key ∈ g.keys)
    {p : Nat} (hp : g.keys[p]? = some k) :
    Graph.Raises i g.nodes o p ↔ Outcome i body inside o k := by
  -- a position, its node and its body
  have hnode {p : Nat} {k : CallKey} (hp : g.keys[p]? = some k) : ∃ n s, g.nodes[p]? = some n ∧
      k ∈ inside ∧ body k s ∧ r.summary? k = some s ∧ n.raised = s.raised ∧
      n.edges = s.calls.filterMap (edge? i r.known? g.keys) := by
    obtain ⟨n, s, hn, _, hs, hrest⟩ := hb.node_at hp
    have hk := List.mem_of_getElem? hp
    exact ⟨n, s, hn, hin k hk, (hbody k hk s).mpr hs, hs, hrest⟩
  constructor
  · intro h
    induction h generalizing k with
    | own hn ho =>
      obtain ⟨n', s, hn', hk, hs, _, hraised, _⟩ := hnode hp
      cases hn.symm.trans hn'
      exact .raised hk hs (hraised ▸ ho)
    | settled hn he ht pass ho =>
      obtain ⟨n', s, hn', hk, hs, _, _, hedges⟩ := hnode hp
      cases hn.symm.trans hn'
      obtain ⟨site, hsite, f, hf, hk', pass⟩ :=
        (exists_settled_edge hedges).mp ⟨_, he, ht, pass⟩
      obtain ⟨hfin, hout⟩ := hknown _ _ hk'
      exact .call hk hs hsite hf hfin pass ((hout o).mp ho)
    | call hn he ht pass _ ih =>
      obtain ⟨n', s, hn', hk, hs, _, _, hedges⟩ := hnode hp
      cases hn.symm.trans hn'
      obtain ⟨site, hsite, f, hf, _, hq, pass⟩ :=
        (exists_node_edge hedges hb.nodup).mp ⟨_, he, ht, pass⟩
      exact .call hk hs hsite hf (hin _ (List.mem_of_getElem? hq)) pass (ih hq)
  · intro h
    induction h generalizing p with
    | @raised k s _ hs ho =>
      obtain ⟨n, s', hn, _, _, hs', hraised, _⟩ := hnode hp
      cases hs'.symm.trans ((hbody k (List.mem_of_getElem? hp) s).mp hs)
      exact .own hn (hraised ▸ ho)
    | @call k s site f _ hs hsite hf hfin pass hout ih =>
      obtain ⟨n, s', hn, _, _, hs', _, hedges⟩ := hnode hp
      have hk := List.mem_of_getElem? hp
      cases hs'.symm.trans ((hbody k hk s).mp hs)
      -- what is known of the callee counts before its node
      cases hk' : r.known? f.key with
      | some t =>
        obtain ⟨e, he, ht, pass⟩ :=
          (exists_settled_edge hedges).mpr ⟨site, hsite, f, hf, hk', pass⟩
        exact .settled hn he ht pass (((hknown _ _ hk').2 o).mpr hout)
      | none =>
        have hm := hkeep k hk s hs' site hsite f hf hfin hk'
        obtain ⟨q, hq⟩ := List.mem_iff_getElem?.mp hm
        obtain ⟨e, he, ht, pass⟩ :=
          (exists_node_edge hedges hb.nodup).mpr ⟨site, hsite, f, hf, hk', hq, pass⟩
        exact .call hn he ht pass (ih hq)

end ContractAudit.Throws
