import ContractAudit.Hierarchy.Build
import ContractAudit.Proofs.LeastOutcome

/-! What a resolver keeps from one query to the next. Main statement: after any queries, what is
kept for a key is the least solution of the equations of the stored bodies, and so is the answer to
a query whose graph is whole. -/
namespace ContractAudit.Throws
variable {i : Index} {c : Config} {r r' r₁ : Resolver} {w w' : Workspace} {g : Collected}
  {k : CallKey} {root : Frame}

/-- The summary under a key. -/
def Resolver.Stores (r : Resolver) (k : CallKey) (s : Summary) : Prop := r.summary? k = some s

theorem known?_remember_of_notMem {nodes : List Node} {results : List NameSet}
    (h : k ∉ nodes.map (·.key)) : (remember nodes results r).known? k = r.known? k := by
  induction nodes generalizing results r with
  | nil => rfl
  | cons n ns ih =>
    cases results with
    | nil => rfl
    | cons s ss =>
      rw [List.map_cons, List.mem_cons, not_or] at h
      have hn : (k == n.key) = false := beq_eq_false_iff_ne.mpr h.1
      calc (remember (n :: ns) (s :: ss) r).known? k
          = (remember ns ss { r with memo := (n.key, s) :: r.memo }).known? k := rfl
        _ = ((n.key, s) :: r.memo).lookup k := ih h.2
        _ = r.known? k := by rw [List.lookup_cons, hn]; rfl

theorem known?_remember {nodes : List Node} {results : List NameSet} {p : Nat} {n : Node}
    {s : NameSet} (hd : (nodes.map (·.key)).Nodup) (hn : nodes[p]? = some n)
    (hs : results[p]? = some s) : (remember nodes results r).known? n.key = some s := by
  induction nodes generalizing results r p with
  | nil => cases hn
  | cons m ns ih =>
    cases results with
    | nil => cases hs
    | cons t ts =>
      have hstep : remember (m :: ns) (t :: ts) r =
          remember ns ts { r with memo := (m.key, t) :: r.memo } := rfl
      rw [List.map_cons, List.nodup_cons] at hd
      rw [hstep]
      cases p with
      | zero =>
        cases hn
        cases hs
        rw [known?_remember_of_notMem hd.1]
        simp [Resolver.known?]
      | succ p => exact ih hd.2 hn hs

structure Settled (i : Index) (r : Resolver) : Prop where
  closed : ∀ {k s}, r.known? k = some s → ∃ b, r.Stores k b ∧
    ∀ site ∈ b.calls, ∀ f, callee? i site = some f → (r.known? f.key).isSome
  exact : ∀ {k s}, r.known? k = some s → ∀ o, o ∈ s ↔ Outcome i r.Stores Set.univ o k

theorem Settled.new : Settled i Resolver.new where
  closed h := by cases h
  exact h := by cases h

/- Bodies that are stored later are not reached from a key that is settled. -/
theorem Settled.outcome_iff (hs : Settled i r) (he : r.Extends r') {s : NameSet}
    (hk : r.known? k = some s) (o : String) :
    Outcome i r'.Stores Set.univ o k ↔ Outcome i r.Stores Set.univ o k := by
  constructor
  · intro h
    induction h generalizing s with
    | @raised k b _ hb ho =>
      obtain ⟨b', hb', _⟩ := hs.closed hk
      cases (he.summary hb').symm.trans hb
      exact .raised trivial hb' ho
    | @call k b site f _ hb hsite hf _ pass _ ih =>
      obtain ⟨b', hb', hcalls⟩ := hs.closed hk
      cases (he.summary hb').symm.trans hb
      obtain ⟨t, ht⟩ := Option.isSome_iff_exists.mp (hcalls site hsite f hf)
      exact .call trivial hb' hsite hf trivial pass (ih ht)
  · intro h
    exact h.mono (fun _ _ => he.summary) (Set.Subset.refl _)

theorem Settled.extend (hs : Settled i r) (he : r.Extends r') : Settled i r' where
  closed hk := by
    rw [he.known] at hk ⊢
    obtain ⟨b, hb, h⟩ := hs.closed hk
    exact ⟨b, he.summary hb, h⟩
  exact hk o := by
    rw [he.known] at hk
    rw [hs.outcome_iff he hk]
    exact hs.exact hk o

/-- The results of a whole graph are the outcomes of its bodies. -/
theorem Settled.mem_outcomes (hs : Settled i r) (hb : Building i r g [])
    (ht : g.truncated = false) {p : Nat} (hp : g.keys[p]? = some k) (o : String) :
    o ∈ (Graph.outcomes i g.nodes).getD p ∅ ↔ Outcome i r.Stores Set.univ o k := by
  rw [Graph.mem_outcomes]
  apply hb.raises_iff (fun _ _ _ => Iff.rfl) (fun _ _ => trivial)
    (fun _ _ hk => ⟨trivial, hs.exact hk⟩) _ hp
  intro k' hk' s hs' site hsite f hf _ hnone
  obtain ⟨n, hn, rfl⟩ := hb.mem_keys.mp hk'
  exact (hb.kept ht hn hs' hsite hf).resolve_right (by simp [hnone])

theorem Building.known?_remember (hb : Building i r g []) {p : Nat}
    (hp : g.keys[p]? = some k) : (remember g.nodes (Graph.outcomes i g.nodes) r).known? k =
      some ((Graph.outcomes i g.nodes).getD p ∅) := by
  obtain ⟨n, _, hn, rfl, _⟩ := hb.node_at hp
  have hd := hb.nodup
  rw [hb.keys_eq] at hd
  apply Throws.known?_remember hd hn
  obtain ⟨hlt, _⟩ := List.getElem?_eq_some_iff.mp hn
  have hlt' : p < (Graph.outcomes i g.nodes).length := by rwa [Graph.length_outcomes]
  rw [List.getD_eq_getElem _ _ hlt', List.getElem?_eq_getElem hlt']

theorem Settled.remember (hs : Settled i r) (hb : Building i r g [])
    (ht : g.truncated = false) :
    Settled i (remember g.nodes (Graph.outcomes i g.nodes) r) := by
  have hkeys : g.keys = g.nodes.map (·.key) := hb.keys_eq
  -- a key is one of the graph, or what is known of it was known before
  have hcases {k s} (hk : (Throws.remember g.nodes (Graph.outcomes i g.nodes) r).known? k =
      some s) : (∃ p, g.keys[p]? = some k ∧ (Graph.outcomes i g.nodes).getD p ∅ = s) ∨
        r.known? k = some s := by
    by_cases hm : k ∈ g.keys
    · obtain ⟨p, hp⟩ := List.mem_iff_getElem?.mp hm
      rw [hb.known?_remember hp] at hk
      exact Or.inl ⟨p, hp, Option.some.inj hk⟩
    · rw [known?_remember_of_notMem (hkeys ▸ hm)] at hk
      exact Or.inr hk
  have hkept {k} (hk : k ∈ g.keys ∨ (r.known? k).isSome) :
      ((Throws.remember g.nodes (Graph.outcomes i g.nodes) r).known? k).isSome := by
    by_cases hm : k ∈ g.keys
    · obtain ⟨p, hp⟩ := List.mem_iff_getElem?.mp hm
      rw [hb.known?_remember hp]
      rfl
    · rw [known?_remember_of_notMem (hkeys ▸ hm)]
      exact hk.resolve_left hm
  constructor
  · intro k s hk
    rcases hcases hk with ⟨p, hp, _⟩ | hk
    · obtain ⟨n, b, hn, rfl, hsum, _⟩ := hb.node_at hp
      exact ⟨b, hsum, fun site hsite f hf =>
        hkept (hb.kept ht (List.mem_of_getElem? hn) hsum hsite hf)⟩
    · obtain ⟨b, hsum, hcalls⟩ := hs.closed hk
      exact ⟨b, hsum, fun site hsite f hf => hkept (Or.inr (hcalls site hsite f hf))⟩
  · intro k s hk o
    rcases hcases hk with ⟨p, hp, rfl⟩ | hk
    · exact hs.mem_outcomes hb ht hp o
    · exact hs.exact hk o

/-- A query for a body drops a call at the ceiling. Where the answer is known, nothing is
collected. -/
def Truncates (i : Index) (c : Config) (root : Frame) (r : Resolver) (w : Workspace) : Prop :=
  r.known? root.key = none ∧ (((collectGraph i c root).run r).run w).1.1.truncated = true

instance : Decidable (Truncates i c root r w) := inferInstanceAs (Decidable (_ ∧ _))

/-- Queries for methods of classes, one after the other. -/
def ask (i : Index) (c : Config) (queries : List (String × String)) : Resolve (List NameSet) :=
  queries.mapM fun (owner, method) => methodThrows i c owner method

/-- A new resolver after queries, and the workspace then. -/
def asked (i : Index) (c : Config) (w : Workspace) (queries : List (String × String)) :
    Resolver × Workspace :=
  ((((ask i c queries).run .new).run w).1.2, (((ask i c queries).run .new).run w).2)

theorem methodThrows_none {owner method : String} {a : NameSet}
    (h : Yields (methodThrows i c owner method) r w a r' w')
    (hm : i.method? owner method = none) :
    a = ∅ ∧ r' = r ∧ ∃ events, w' = { w with events } := by
  obtain ⟨f, r₁, w₁, hf, hrest⟩ := h.bind_inv
  rw [frame?, hm] at hf
  cases hf
  cases hrest
  exact ⟨rfl, rfl, _, rfl⟩

theorem solve_yields {owner method : String} {root : Frame} {a : NameSet}
    (h : Yields (solve i c owner method root) r w a r' w') :
    ∃ g r₁ w₁, Yields (collectGraph i c root) r w g r₁ w₁ ∧
      a = (Graph.outcomes i g.nodes).getD 0 ∅ ∧
      r' = (if g.truncated then r₁ else remember g.nodes (Graph.outcomes i g.nodes) r₁) ∧
      ∃ events, w' = { w₁ with events } := by
  obtain ⟨g, r₁, w₁, hg, hrest⟩ := h.bind_inv
  have hhead : (Graph.outcomes i g.nodes).head?.getD ∅ =
      (Graph.outcomes i g.nodes).getD 0 ∅ := by
    rw [List.head?_eq_getElem?, List.getD_eq_getElem?_getD]
  refine ⟨g, r₁, w₁, hg, ?_⟩
  cases ht : g.truncated with
  | true =>
    simp only [ht, if_true] at hrest
    cases hrest
    exact ⟨hhead, rfl, _, rfl⟩
  | false =>
    simp only [ht, Bool.false_eq_true, if_false] at hrest
    cases hrest
    exact ⟨hhead, rfl, _, rfl⟩

/- A query for a method that exists: the answer is known, or it is worked out from a graph. -/
theorem methodThrows_some {owner method : String} {m : MethodInfo} {a : NameSet}
    (hd : 1 ≤ c.maxCallDepth) (h : Yields (methodThrows i c owner method) r w a r' w')
    (hm : i.method? owner method = some m) :
    (r.known? (Frame.mk owner m).key = some a ∧ r' = r ∧ w' = w) ∨
      r.known? (Frame.mk owner m).key = none ∧ ∃ g r₁ w₁,
        Yields (collectGraph i c ⟨owner, m⟩) r w g r₁ w₁ ∧
        a = (Graph.outcomes i g.nodes).getD 0 ∅ ∧
        r' = (if g.truncated then r₁ else remember g.nodes (Graph.outcomes i g.nodes) r₁) ∧
        ∃ events, w' = { w₁ with events } := by
  obtain ⟨f, r₁, w₁, hf, hrest⟩ := h.bind_inv
  rw [frame?, hm] at hf
  obtain ⟨rfl, rfl, rfl⟩ := yields_pure.mp hf
  obtain ⟨r₂, r₃, w₃, hget, hlast⟩ := hrest.bind_inv
  cases hget
  cases hk : r₁.known? (Frame.mk owner m).key with
  | some s =>
    rw [hk] at hlast
    obtain ⟨rfl, rfl, rfl⟩ := yields_pure.mp hlast
    exact Or.inl ⟨rfl, rfl, rfl⟩
  | none =>
    rw [hk] at hlast
    simp only [Nat.ne_of_gt hd, if_false] at hlast
    exact Or.inr ⟨rfl, solve_yields hlast⟩

theorem Settled.query {owner method : String} {a : NameSet} (hs : Settled i r)
    (hd : 1 ≤ c.maxCallDepth) (h : Yields (methodThrows i c owner method) r w a r' w') :
    Settled i r' := by
  cases hm : i.method? owner method with
  | none =>
    rw [(methodThrows_none h hm).2.1]
    exact hs
  | some m =>
    rcases methodThrows_some hd h hm with ⟨_, rfl, _⟩ | ⟨hk, g, r₁, w₁, hg, _, rfl, _⟩
    · exact hs
    · obtain ⟨hb, he, _⟩ := collectGraph_yields hg hd hk
      cases ht : g.truncated with
      | true => exact hs.extend he
      | false => exact (hs.extend he).remember hb ht

theorem Settled.answer {owner method : String} {m : MethodInfo} {a : NameSet} (hs : Settled i r)
    (hd : 1 ≤ c.maxCallDepth) (h : Yields (methodThrows i c owner method) r w a r' w')
    (hm : i.method? owner method = some m) (ht : ¬ Truncates i c ⟨owner, m⟩ r w) (o : String) :
    o ∈ a ↔ Outcome i r'.Stores Set.univ o (Frame.mk owner m).key := by
  rcases methodThrows_some hd h hm with ⟨hk, rfl, _⟩ | ⟨hk, g, r₁, w₁, hg, rfl, rfl, _⟩
  · exact hs.exact hk o
  · obtain ⟨hb, he, hroot⟩ := collectGraph_yields hg hd hk
    have hwhole : g.truncated = false := by
      rw [Bool.eq_false_iff]
      intro htr
      refine ht ⟨hk, ?_⟩
      rw [hg]
      exact htr
    rw [List.head?_eq_getElem?] at hroot
    rw [hwhole]
    exact (hs.extend he).mem_outcomes hb hwhole hroot o

/- What each query keeps, a run of queries keeps. -/
theorem ask_keeps (Inv : Resolver → Workspace → Prop)
    (hq : ∀ {owner method a r w r' w'}, Inv r w →
      Yields (methodThrows i c owner method) r w a r' w' → Inv r' w')
    {queries : List (String × String)} {answers : List NameSet} (hi : Inv r w)
    (h : Yields (ask i c queries) r w answers r' w') : Inv r' w' := by
  induction queries generalizing r w answers with
  | nil =>
    cases h
    exact hi
  | cons q queries ih =>
    rw [ask, List.mapM_cons] at h
    obtain ⟨a, r₁, w₁, hfirst, hrest⟩ := h.bind_inv
    obtain ⟨as, r₂, w₂, hqs, hlast⟩ := hrest.bind_inv
    obtain ⟨rfl, rfl, rfl⟩ := yields_pure.mp hlast
    exact ih (hq hi hfirst) hqs

theorem Settled.ask {queries : List (String × String)} {answers : List NameSet}
    (hs : Settled i r) (hd : 1 ≤ c.maxCallDepth)
    (h : Yields (ask i c queries) r w answers r' w') : Settled i r' :=
  ask_keeps (fun r _ => Settled i r) (fun hs h => hs.query hd h) hs h

/-- The answer to one more query, and the resolver after it. -/
def askNext (i : Index) (c : Config) (w : Workspace) (queries : List (String × String))
    (owner method : String) : NameSet × Resolver :=
  (((methodThrows i c owner method).run (asked i c w queries).1).run (asked i c w queries).2).1

/-- After any queries, what is kept for a key is the least solution of the equations of the stored
bodies; and so is the answer to a further query that drops no call. -/
theorem kept_answers_are_least (i : Index) (c : Config) (hd : 1 ≤ c.maxCallDepth) (w : Workspace)
    (queries : List (String × String)) :
    IsLeast { L | Solves i (asked i c w queries).1.Stores Set.univ L }
      (least i (asked i c w queries).1.Stores Set.univ) ∧
    (∀ k s, (asked i c w queries).1.known? k = some s →
      { o | o ∈ s } = least i (asked i c w queries).1.Stores Set.univ k) ∧
    ∀ owner method m, i.method? owner method = some m →
      ¬ Truncates i c ⟨owner, m⟩ (asked i c w queries).1 (asked i c w queries).2 →
      { o | o ∈ (askNext i c w queries owner method).1 } =
        least i (askNext i c w queries owner method).2.Stores Set.univ
          (Frame.mk owner m).key := by
  have hs : Settled i (asked i c w queries).1 := Settled.new.ask hd (Yields.of_run _ _ _)
  refine ⟨least_isLeast, ?_, ?_⟩
  · intro k s hk
    exact Set.ext (hs.exact hk)
  · intro owner method m hm ht
    exact Set.ext (hs.answer hd (Yields.of_run _ _ _) hm ht)

/- A class of three methods. Two call each other, one with a catch clause around the call, and the
third raises. -/
namespace Sample

def path : Source.Path := ⟨"a.php"⟩

def call (method : String) : Stmt :=
  .expr (.methodCall default (.var default "this") (.ident method) [] false false)

def method (name : String) (body : List Stmt) : MethodDecl :=
  ⟨name, [], none, [], none, false, some ⟨default, body⟩, default⟩

def raise (name : String) : Stmt :=
  .throwing default (.new default (.named ⟨name, some name, default⟩) [])

/-- The statement in a `try` that catches one class. -/
def guarded (s : Stmt) (caught : String) : Stmt :=
  .tryCatch default ⟨default, [s]⟩
    [⟨default, [⟨caught, some caught, default⟩], none, ⟨default, []⟩⟩] none

def block : NamespaceBlock :=
  ⟨none, [], [⟨.classType, "A", "A", [], [], [], [],
    [method "f" [guarded (call "g") "F"], method "g" [call "f", call "h"],
      method "h" [raise "E", raise "F"]],
    none, default⟩], default⟩

def index : Index := ⟨block.classes path, []⟩

/-- The method `f` as a look-up gives it. -/
def first : MethodInfo :=
  MethodInfo.ofDecl ⟨"A", none⟩ path (method "f" [guarded (call "g") "F"])

def honoring : Config := { honorCatch := true }

def workspace : Workspace :=
  ⟨Loader.memory [], [(path, some ⟨path, ⟨[block], true, default⟩, 1⟩)], 1, []⟩

end Sample

theorem kept_answers_are_least_sample :
    (asked Sample.index Sample.honoring Sample.workspace [("A", "f")]).1.known? ⟨"a", "a", "g"⟩ =
      some (NameSet.ofList ["E", "F"]) ∧
    { o | o ∈ NameSet.ofList ["E", "F"] } = least Sample.index
      (asked Sample.index Sample.honoring Sample.workspace [("A", "f")]).1.Stores Set.univ
      ⟨"a", "a", "g"⟩ ∧
    Sample.index.method? "A" "f" = some Sample.first ∧
    (askNext Sample.index Sample.honoring Sample.workspace [("A", "h")] "A" "f").1 =
      NameSet.ofList ["E"] ∧
    { o | o ∈ (askNext Sample.index Sample.honoring Sample.workspace [("A", "h")] "A" "f").1 } =
      least Sample.index
        (askNext Sample.index Sample.honoring Sample.workspace [("A", "h")] "A" "f").2.Stores
        Set.univ (Frame.mk "A" Sample.first).key := by
  have hd : 1 ≤ Sample.honoring.maxCallDepth := by decide
  have hknown : (asked Sample.index Sample.honoring Sample.workspace [("A", "f")]).1.known?
      ⟨"a", "a", "g"⟩ = some (NameSet.ofList ["E", "F"]) := by decide +kernel
  have hm : Sample.index.method? "A" "f" = some Sample.first := by decide +kernel
  have hfirst :=
    kept_answers_are_least Sample.index Sample.honoring hd Sample.workspace [("A", "f")]
  have hnext :=
    kept_answers_are_least Sample.index Sample.honoring hd Sample.workspace [("A", "h")]
  exact ⟨hknown, hfirst.2.1 _ _ hknown, hm, by decide +kernel,
    hnext.2.2 _ _ _ hm (by decide +kernel)⟩

end ContractAudit.Throws
