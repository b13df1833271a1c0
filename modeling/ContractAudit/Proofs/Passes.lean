import ContractAudit.Proofs.Memo

/-! Passing exceptions in place. Main statements: the outcomes of a graph are what its paths bring
to each node, passes in which the nodes take their turns one after the other end with the same
outcomes, and in a graph that a query collects every edge leads to the node of its callee. -/
namespace ContractAudit.Throws

namespace Graph
variable {i : Index} {nodes : List Node} {rs ss : List NameSet} {o : String} {e : Edge} {p q : Nat}

/-- The edges of a path from one node to another. -/
inductive Path (nodes : List Node) : Nat → List Edge → Nat → Prop where
  | here (p : Nat) : Path nodes p [] p
  | call {p q last : Nat} {n : Node} {e : Edge} {es : List Edge} : nodes[p]? = some n →
      e ∈ n.edges → e.target = .node q → Path nodes q es last → Path nodes p (e :: es) last

/-- No type that is caught around the call is the exception or above it. -/
def LetsPass (i : Index) (o : String) (e : Edge) : Prop :=
  ∀ c ∈ e.caught, i.isSubtype o c = false

/-- The node raises the exception itself, or has it from a callee that is known already. -/
def Starts (i : Index) (o : String) (n : Node) : Prop :=
  o ∈ n.raised ∨ ∃ e ∈ n.edges, LetsPass i o e ∧ ∃ s, e.target = .settled s ∧ o ∈ s

/- Both directions go along the path, whose last node is where the exception comes from. -/
theorem raises_iff_path : Raises i nodes o p ↔ ∃ es q n, Path nodes p es q ∧
    (∀ e ∈ es, LetsPass i o e) ∧ nodes[q]? = some n ∧ Starts i o n := by
  constructor
  · intro h
    induction h with
    | @own p n hn ho => exact ⟨[], p, n, .here p, by simp, hn, .inl ho⟩
    | @settled p n e s hn he hs pass ho =>
      exact ⟨[], p, n, .here p, by simp, hn, .inr ⟨e, he, isCaught_eq_false.mp pass, s, hs, ho⟩⟩
    | @call p q n e hn he hq pass _ ih =>
      obtain ⟨es, last, m, hpath, hes, hm, hstarts⟩ := ih
      exact ⟨e :: es, last, m, .call hn he hq hpath,
        List.forall_mem_cons.mpr ⟨isCaught_eq_false.mp pass, hes⟩, hm, hstarts⟩
  · rintro ⟨es, q, n, hpath, hes, hn, hstarts⟩
    induction hpath with
    | here p =>
      rcases hstarts with ho | ⟨e, he, pass, s, hs, ho⟩
      · exact .own hn ho
      · exact .settled hn he hs (isCaught_eq_false.mpr pass) ho
    | call hm he hq _ ih =>
      obtain ⟨pass, hes⟩ := List.forall_mem_cons.mp hes
      exact .call hm he hq (isCaught_eq_false.mpr pass) (ih hes hn)

/-- One node takes over what its calls let through at present; the others stay as they are. -/
def turn (i : Index) (nodes : List Node) (rs : List NameSet) (p : Nat) : List NameSet :=
  match nodes[p]? with
  | some n => rs.modify p (gain i rs n)
  | none => rs

/-- The nodes take their turns in order, each with what the ones before it have taken over. -/
def pass (i : Index) (nodes : List Node) (rs : List NameSet) : List NameSet :=
  (List.range nodes.length).foldl (turn i nodes) rs

/-- The results after a number of passes. -/
def passes (i : Index) (nodes : List Node) (k : Nat) : List NameSet :=
  (pass i nodes)^[k] (nodes.map (·.raised))

theorem length_turn : (turn i nodes rs p).length = rs.length := by
  unfold turn
  split
  · exact List.length_modify ..
  · rfl

theorem length_turns (ps : List Nat) : (ps.foldl (turn i nodes) rs).length = rs.length := by
  induction ps generalizing rs with
  | nil => rfl
  | cons p ps ih => rw [List.foldl_cons, ih, length_turn]

theorem passes_succ (k : Nat) : passes i nodes (k+1) = pass i nodes (passes i nodes k) :=
  Function.iterate_succ_apply' _ _ _

theorem length_passes (k : Nat) : (passes i nodes k).length = nodes.length := by
  induction k with
  | zero => simp [passes]
  | succ k ih => rw [passes_succ, pass, length_turns, ih]

theorem mem_turn (h : rs.length = nodes.length) : o ∈ (turn i nodes rs p).getD q ∅ ↔
    o ∈ rs.getD q ∅ ∨ p = q ∧ ∃ n, nodes[p]? = some n ∧ ∃ e ∈ n.edges, o ∈ passed i rs e := by
  unfold turn
  cases hn : nodes[p]? with
  | none => simp
  | some n =>
    have hp : p < rs.length := by
      rw [h]
      exact (List.getElem?_eq_some_iff.mp hn).1
    by_cases hpq : p = q
    · subst hpq
      simp [List.getD_eq_getElem?_getD, List.getElem?_modify_eq, List.getElem?_eq_getElem hp,
        mem_gain]
    · simp [List.getD_eq_getElem?_getD, List.getElem?_modify_ne _ _ hpq, hpq]

def Within (rs ss : List NameSet) : Prop := ∀ p, ∀ o ∈ rs.getD p ∅, o ∈ ss.getD p ∅

namespace Within

theorem refl (rs : List NameSet) : Within rs rs := fun _ _ => id

theorem trans {ts : List NameSet} (h : Within rs ss) (h' : Within ss ts) : Within rs ts :=
  fun p o ho => h' p o (h p o ho)

theorem passed (h : Within rs ss) (ho : o ∈ passed i rs e) : o ∈ passed i ss e := by
  obtain ⟨hpass, ⟨q, hq, ho⟩ | hsettled⟩ := mem_passed.mp ho
  · exact mem_passed.mpr ⟨hpass, .inl ⟨q, hq, h q o ho⟩⟩
  · exact mem_passed.mpr ⟨hpass, .inr hsettled⟩

theorem antisymm (hlength : rs.length = ss.length) (h : Within rs ss) (h' : Within ss rs) :
    rs = ss := by
  refine List.ext_getElem hlength fun p hp hp' => NameSet.ext fun o => ?_
  have hto := h p o
  have hfrom := h' p o
  rw [List.getD_eq_getElem _ _ hp, List.getD_eq_getElem _ _ hp'] at hto hfrom
  exact ⟨hto, hfrom⟩

end Within

theorem within_turn (h : rs.length = nodes.length) : Within rs (turn i nodes rs p) :=
  fun _ _ ho => (mem_turn h).mpr (.inl ho)

theorem within_turns (h : rs.length = nodes.length) (ps : List Nat) :
    Within rs (ps.foldl (turn i nodes) rs) := by
  induction ps generalizing rs with
  | nil => exact .refl rs
  | cons p ps ih => exact (within_turn h).trans (ih (length_turn.trans h))

/- When its turn comes, a node finds at least what there was before the turns. -/
theorem mem_turns {ps : List Nat} {n : Node} (h : rs.length = nodes.length) (hp : p ∈ ps)
    (hn : nodes[p]? = some n) (he : e ∈ n.edges) (ho : o ∈ passed i rs e) :
    o ∈ (ps.foldl (turn i nodes) rs).getD p ∅ := by
  induction ps generalizing rs with
  | nil => cases hp
  | cons q ps ih =>
    have hlength : (turn i nodes rs q).length = nodes.length := length_turn.trans h
    rcases List.mem_cons.mp hp with rfl | hp
    · exact within_turns hlength ps p o ((mem_turn h).mpr (.inr ⟨rfl, n, hn, e, he, ho⟩))
    · exact ih hlength hp ((within_turn h).passed ho)

/- A pass brings at least what a round brings. -/
theorem round_within_pass (hr : rs.length = nodes.length) (hs : ss.length = nodes.length)
    (h : Within rs ss) : Within (round i nodes rs) (pass i nodes ss) := by
  intro p o ho
  rcases (mem_round hr).mp ho with ho | ⟨n, hn, e, he, ho⟩
  · exact within_turns hs _ p o (h p o ho)
  · have hp : p ∈ List.range nodes.length :=
      List.mem_range.mpr (List.getElem?_eq_some_iff.mp hn).1
    exact mem_turns hs hp hn he (h.passed ho)

theorem after_within_passes (k : Nat) : Within (after i nodes k) (passes i nodes k) := by
  induction k with
  | zero => exact .refl _
  | succ k ih =>
    rw [after_succ, passes_succ]
    exact round_within_pass (length_after k) (length_passes k) ih

/- Turns bring nothing to a node that no chain of calls brings. -/
theorem turns_sound (hlength : rs.length = nodes.length)
    (h : ∀ p, ∀ o ∈ rs.getD p ∅, Raises i nodes o p) (ps : List Nat) :
    ∀ p, ∀ o ∈ (ps.foldl (turn i nodes) rs).getD p ∅, Raises i nodes o p := by
  induction ps generalizing rs with
  | nil => exact h
  | cons q ps ih =>
    refine ih (length_turn.trans hlength) ?_
    intro p o ho
    rcases (mem_turn hlength).mp ho with ho | ⟨rfl, n, hn, e, he, ho⟩
    · exact h p o ho
    · obtain ⟨hpass, ⟨r, hr, ho⟩ | ⟨s, hs, ho⟩⟩ := mem_passed.mp ho
      · exact .call hn he hr hpass (h r o ho)
      · exact .settled hn he hs hpass ho

theorem passes_sound (k : Nat) : ∀ p, ∀ o ∈ (passes i nodes k).getD p ∅, Raises i nodes o p := by
  induction k with
  | zero => exact fun p o ho => raises_of_mem_after (k := 0) ho
  | succ k ih =>
    rw [passes_succ]
    exact turns_sound (length_passes k) ih _

theorem passes_within (k : Nat) : Within (passes i nodes k) (outcomes i nodes) :=
  fun p o ho => mem_outcomes.mpr (passes_sound k p o ho)

/- Once a pass changes nothing, no later one does. -/
theorem passes_of_stable {k : Nat} (h : passes i nodes (k+1) = passes i nodes k) (m : Nat) :
    passes i nodes (k+m) = passes i nodes k := by
  induction m with
  | zero => rfl
  | succ m ih => rw [← Nat.add_assoc, passes_succ, ih, ← passes_succ, h]

/- As many passes as there are nodes are enough, and more of them lose nothing. -/
theorem outcomes_within_passes {k : Nat} (h : nodes.length ≤ k) :
    Within (outcomes i nodes) (passes i nodes k) := by
  induction k, h using Nat.le_induction with
  | base =>
    rw [outcomes_eq_after]
    exact after_within_passes _
  | succ k _ ih =>
    rw [passes_succ]
    exact ih.trans (within_turns (length_passes k) _)

theorem passes_of_le {k : Nat} (h : nodes.length ≤ k) : passes i nodes k = outcomes i nodes :=
  Within.antisymm (by rw [length_passes, length_outcomes]) (passes_within k)
    (outcomes_within_passes h)

/-- Every node ends with the exceptions that a path leads to: one whose calls all let the exception
through, and whose last node raises it or has it from a known callee. Passes in place come to a
stop, after no more of them than there are nodes and one that changes nothing, and what they stop
with is this. -/
theorem outcomes_along_paths (i : Index) (nodes : List Node) :
    (outcomes i nodes).length = nodes.length ∧
    (∀ p o, o ∈ (outcomes i nodes).getD p ∅ ↔ ∃ es q n, Path nodes p es q ∧
      (∀ e ∈ es, LetsPass i o e) ∧ nodes[q]? = some n ∧ Starts i o n) ∧
    (∃ k ≤ nodes.length, passes i nodes (k+1) = passes i nodes k) ∧
    ∀ k, passes i nodes (k+1) = passes i nodes k → passes i nodes k = outcomes i nodes := by
  refine ⟨length_outcomes, fun p o => mem_outcomes.trans raises_iff_path, ?_, ?_⟩
  · refine ⟨nodes.length, le_rfl, ?_⟩
    rw [passes_of_le (Nat.le_succ _), passes_of_le le_rfl]
  · intro k hk
    rw [← passes_of_stable hk nodes.length, passes_of_le (Nat.le_add_left ..)]

end Graph

section
variable {i : Index} {r : Resolver} {g : Collected}

/-- Where an edge to a body leads: to the node of the body, or to what is known of it. -/
inductive LeadsTo (known : CallKey → Option NameSet) (nodes : List Node) (f : Frame) :
    Target → Prop where
  | node {p : Nat} {n : Node} : nodes[p]? = some n → n.key = f.key →
      LeadsTo known nodes f (.node p)
  | settled {s : NameSet} : known f.key = some s → LeadsTo known nodes f (.settled s)

theorem leadsTo_of_edge? {known : CallKey → Option NameSet} {nodes : List Node} {site : CallSite}
    {e : Edge} (h : edge? i known (nodes.map (·.key)) site = some e) :
    ∃ f, callee? i site = some f ∧ e.caught = site.caught ∧ LeadsTo known nodes f e.target := by
  obtain ⟨f, hf, h⟩ := Option.bind_eq_some_iff.mp h
  refine ⟨f, hf, ?_⟩
  cases hk : known f.key with
  | some s =>
    rw [hk] at h
    cases h
    exact ⟨rfl, .settled hk⟩
  | none =>
    rw [hk] at h
    obtain ⟨p, hp, rfl⟩ := Option.map_eq_some_iff.mp h
    obtain ⟨hlt, hkey, _⟩ := List.idxOf?_eq_some_iff.mp hp
    have hkeys : (nodes.map (·.key))[p]? = some f.key := List.getElem?_eq_some_iff.mpr ⟨hlt, hkey⟩
    rw [List.getElem?_map] at hkeys
    obtain ⟨n, hn, hkey⟩ := Option.map_eq_some_iff.mp hkeys
    exact ⟨rfl, .node hn hkey⟩

/- With no level to collect there are no nodes. -/
theorem collectGraph_nodes {c : Config} {w w' : Workspace} {r' : Resolver} {root : Frame}
    (hr : r.known? root.key = none) (h : Yields (collectGraph i c root) r w g r' w') :
    (1 ≤ c.maxCallDepth → g.nodes.head?.map (·.key) = some root.key) ∧
      (g.nodes.map (·.key)).Nodup ∧ (∀ n ∈ g.nodes, r.known? n.key = none) ∧
      ∀ n ∈ g.nodes, ∃ s, r'.summary? n.key = some s ∧ ∀ e ∈ n.edges, ∃ site ∈ s.calls,
        ∃ f, callee? i site = some f ∧ e.caught = site.caught ∧
          LeadsTo r.known? g.nodes f e.target := by
  by_cases hd : 1 ≤ c.maxCallDepth
  · obtain ⟨hb, he, hfirst⟩ := collectGraph_yields h hd hr
    have hkeys : g.keys = g.nodes.map (·.key) := by simpa using hb.keys
    have hnodup := hb.nodup
    rw [hkeys] at hfirst hnodup
    refine ⟨fun _ => by rw [← List.head?_map, hfirst], hnodup, ?_, ?_⟩
    · intro n hn
      rw [← he.known]
      exact hb.fresh n.key (hkeys ▸ List.mem_map_of_mem hn)
    · intro n hn
      obtain ⟨s, hs, _, hedges⟩ := hb.nodes n hn
      refine ⟨s, hs, ?_⟩
      intro e he'
      rw [hedges, he.known, hkeys] at he'
      obtain ⟨site, hsite, hedge⟩ := List.mem_filterMap.mp he'
      exact ⟨site, hsite, leadsTo_of_edge? hedge⟩
  · rw [collectGraph, Nat.eq_zero_of_not_pos hd] at h
    obtain ⟨rfl, _, _⟩ := yields_pure.mp h
    exact ⟨fun hpos => absurd hpos hd, by simp [Collected.start]⟩

end

/-- The graph that is collected below a method of which nothing is known. The method comes first, no
body has two nodes, and none is known already. Every edge belongs to a call of its node's body and
leads to the callee; so passing exceptions on, a node never looks beyond the results. -/
theorem collectGraph_positions (i : Index) (c : Config) (w : Workspace) {r : Resolver}
    {root : Frame} (hr : r.known? root.key = none) :
    ∃ g r' w', Yields (collectGraph i c root) r w g r' w' ∧
      (1 ≤ c.maxCallDepth → g.nodes.head?.map (·.key) = some root.key) ∧
      (g.nodes.map (·.key)).Nodup ∧
      (∀ n ∈ g.nodes, r.known? n.key = none) ∧
      (∀ n ∈ g.nodes, ∃ s, r'.summary? n.key = some s ∧ ∀ e ∈ n.edges, ∃ site ∈ s.calls,
        ∃ f, callee? i site = some f ∧ e.caught = site.caught ∧
          LeadsTo r.known? g.nodes f e.target) ∧
      ∀ n ∈ g.nodes, ∀ e ∈ n.edges, ∀ p, e.target = .node p → ∀ turns : List Nat,
        p < (turns.foldl (Graph.turn i g.nodes) (g.nodes.map (·.raised))).length := by
  have hg := Yields.of_run (collectGraph i c root) r w
  obtain ⟨hfirst, hnodup, hfresh, hnodes⟩ := collectGraph_nodes hr hg
  refine ⟨_, _, _, hg, hfirst, hnodup, hfresh, hnodes, ?_⟩
  intro n hn e he p hp turns
  obtain ⟨s, _, hedges⟩ := hnodes n hn
  obtain ⟨site, _, f, _, _, hleads⟩ := hedges e he
  rw [hp] at hleads
  cases hleads with
  | node hn _ =>
    rw [Graph.length_turns, List.length_map]
    exact (List.getElem?_eq_some_iff.mp hn).1

/- What `h` raises is known; `f` and `g` call each other, and `g` calls `h`. -/
theorem collectGraph_positions_sample :
    (asked Sample.index {} Sample.workspace [("A", "h")]).1.known?
      (Frame.mk "A" Sample.first).key = none ∧
    ∃ g r' w', Yields (collectGraph Sample.index {} ⟨"A", Sample.first⟩)
        (asked Sample.index {} Sample.workspace [("A", "h")]).1
        (asked Sample.index {} Sample.workspace [("A", "h")]).2 g r' w' ∧
      g.nodes.map (·.key) = [⟨"a", "a", "f"⟩, ⟨"a", "a", "g"⟩] ∧
      (g.nodes.map (·.key)).Nodup ∧
      g.nodes.map (·.edges.length) = [1, 2] ∧
      ∀ n ∈ g.nodes, ∀ e ∈ n.edges, ∀ p, e.target = .node p → ∀ turns : List Nat,
        p < (turns.foldl (Graph.turn Sample.index g.nodes) (g.nodes.map (·.raised))).length := by
  have hr : (asked Sample.index {} Sample.workspace [("A", "h")]).1.known?
      (Frame.mk "A" Sample.first).key = none := by decide +kernel
  obtain ⟨g, r', w', hg, _, hnodup, _, _, hrange⟩ :=
    collectGraph_positions Sample.index {}
      (asked Sample.index {} Sample.workspace [("A", "h")]).2 hr
  obtain ⟨rfl, -, -⟩ := (Yields.of_run _ _ _).unique hg
  exact ⟨hr, _, _, _, hg, by decide +kernel, hnodup, by decide +kernel, hrange⟩

end ContractAudit.Throws
