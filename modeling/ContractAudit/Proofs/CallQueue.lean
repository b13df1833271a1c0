import ContractAudit.Proofs.CallGraph

/-! Collecting a call graph by a queue. Main statement: a queue that takes one body at a time and
puts those it leads to behind all others, each with its depth, collects the graph that is collected
level by level. -/
namespace ContractAudit.Throws
variable {i : Index} {c : Config} {r r' : Resolver} {w w' : Workspace} {g g' : Collected}

/-- A graph and the bodies that wait to be scanned for it, each with its depth below the root. -/
structure Queue where
  graph : Collected
  waiting : List (Frame × Nat)

namespace Queue

def start (root : Frame) : Queue := ⟨.start root, [(root, 0)]⟩

/-- Scans the body that waits longest. A call from it is followed if what it leads to lies above the
ceiling. -/
def step (i : Index) (c : Config) (q : Queue) : Resolve Queue :=
  match q.waiting with
  | [] => return q
  | (f, depth) :: rest => do
    let g ← collectNode i c (depth + 1 < c.maxCallDepth) q.graph f
    return ⟨{ g with next := [] }, rest ++ g.next.map (·, depth + 1)⟩

def steps (i : Index) (c : Config) : Nat → Queue → Resolve Queue
  | 0, q => return q
  | n + 1, q => do steps i c n (← q.step i c)

theorem steps_add (m n : Nat) (q : Queue) :
    steps i c (m + n) q = steps i c m q >>= steps i c n := by
  induction m generalizing q with
  | zero => rw [Nat.zero_add, steps, pure_bind]
  | succ m ih =>
    rw [Nat.succ_add, steps, steps, bind_assoc]
    exact congrArg (q.step i c >>= ·) (funext ih)

/- A queue that has run empty stays as it is. -/
theorem steps_empty (n : Nat) (g : Collected) : steps i c n ⟨g, []⟩ = pure ⟨g, []⟩ := by
  induction n with
  | zero => rfl
  | succ n ih =>
    rw [steps, step, pure_bind]
    exact ih

end Queue

namespace Collected

/-- The graph as it is if these bodies were found first. -/
def behind (fs : List Frame) (g : Collected) : Collected := { g with next := fs ++ g.next }

theorem target_behind (deeper : Bool) (r : Resolver) (fs : List Frame) (g : Collected) (f : Frame) :
    target deeper r (g.behind fs) f =
      ((target deeper r g f).1.behind fs, (target deeper r g f).2) := by
  have hkeys : (g.behind fs).keys = g.keys := rfl
  rw [target, target, hkeys]
  cases r.known? f.key with
  | some s => rfl
  | none =>
    cases g.keys.idxOf? f.key with
    | some position => rfl
    | none => cases deeper <;> simp [behind]

end Collected

theorem followSite_behind (deeper : Bool) (fs : List Frame) (g : Collected) (site : CallSite) :
    followSite i deeper (g.behind fs) site =
      (fun p => (p.1.behind fs, p.2)) <$> followSite i deeper g site := by
  simp only [followSite, map_bind]
  refine congrArg (frame? i _ _ _ >>= ·) (funext fun found => ?_)
  cases found with
  | none => simp
  | some f => simp [Collected.target_behind]

theorem followSites_behind (deeper : Bool) (fs : List Frame) (g : Collected)
    (sites : List CallSite) :
    followSites i deeper (g.behind fs) sites =
      (fun p => (p.1.behind fs, p.2)) <$> followSites i deeper g sites := by
  induction sites generalizing g with
  | nil => simp [followSites]
  | cons site sites ih => simp [followSites, followSite_behind, ih]

theorem collectNode_behind (deeper : Bool) (fs : List Frame) (g : Collected) (f : Frame) :
    collectNode i c deeper (g.behind fs) f =
      Collected.behind fs <$> collectNode i c deeper g f := by
  simp only [collectNode, followSites_behind, map_bind, bind_map_left, map_pure]
  rfl

/-- The bodies that were found wait at one depth. -/
def Queue.ofLevel (depth : Nat) (g : Collected) : Queue :=
  ⟨{ g with next := [] }, g.next.map (·, depth)⟩

/- While a level is scanned, what is left of it stands in front of what was found below it. -/
theorem Queue.steps_level (depth : Nat) (level : List Frame) (g : Collected) :
    steps i c level.length
        ⟨{ g with next := [] }, level.map (·, depth) ++ g.next.map (·, depth + 1)⟩ =
      ofLevel (depth + 1) <$>
        level.foldlM (collectNode i c (depth + 1 < c.maxCallDepth)) g := by
  induction level generalizing g with
  | nil => simp [steps, ofLevel]
  | cons f level ih =>
    have hempty : g = Collected.behind g.next { g with next := [] } := by
      simp [Collected.behind]
    have hnode : collectNode i c (depth + 1 < c.maxCallDepth) g f = Collected.behind g.next <$>
        collectNode i c (depth + 1 < c.maxCallDepth) { g with next := [] } f := by
      rw [← collectNode_behind, ← hempty]
    rw [List.foldlM_cons, hnode, bind_map_left, map_bind, List.length_cons, steps, List.map_cons,
      List.cons_append, step, bind_assoc]
    refine congrArg (collectNode i c _ _ f >>= ·) (funext fun g' => ?_)
    rw [pure_bind, List.append_assoc, ← List.map_append]
    exact ih (g'.behind g.next)

/- At the ceiling nothing is found for a next level. -/
theorem collectLevel_next {level : List Frame}
    (h : Yields (level.foldlM (collectNode i c false) g) r w g' r' w') : g'.next = g.next := by
  induction level generalizing g r w with
  | nil =>
    obtain ⟨rfl, rfl, rfl⟩ := yields_pure.mp h
    rfl
  | cons f level ih =>
    rw [List.foldlM_cons] at h
    obtain ⟨g₁, r₁, w₁, hnode, hrest⟩ := h.bind_inv
    obtain ⟨s, r₂, w₂, _, hnode⟩ := hnode.bind_inv
    obtain ⟨⟨g₂, es⟩, r₃, w₃, hsites, hnode⟩ := hnode.bind_inv
    obtain ⟨rfl, rfl, rfl⟩ := yields_pure.mp hnode
    obtain ⟨rfl, fs, hf⟩ := followSites_yields hsites
    rw [ih hrest]
    exact hf.next.trans (by rw [hf.shallow rfl, List.append_nil])

/- The depth of a level and the levels that are left add up to the ceiling. -/
theorem Queue.steps_collectLevels {levels depth : Nat} {level : List Frame}
    (h : Yields (collectLevels i c levels level g) r w g' r' w')
    (hdepth : depth + levels = c.maxCallDepth) (hlevel : levels = 0 → level = []) :
    ∃ n, Yields (steps i c n ⟨{ g with next := [] }, level.map (·, depth)⟩) r w
      ⟨{ g' with next := [] }, []⟩ r' w' := by
  induction levels generalizing depth level g r w with
  | zero =>
    obtain ⟨rfl, rfl, rfl⟩ := yields_pure.mp h
    rw [hlevel rfl]
    exact ⟨0, rfl⟩
  | succ levels ih =>
    rw [collectLevels] at h
    split at h
    · next hempty =>
      obtain ⟨rfl, rfl, rfl⟩ := yields_pure.mp h
      rw [List.isEmpty_iff.mp hempty]
      exact ⟨0, rfl⟩
    · obtain ⟨g₁, r₁, w₁, hscan, hrest⟩ := h.bind_inv
      have hdeeper : decide (0 < levels) = decide (depth + 1 < c.maxCallDepth) := by
        rw [← hdepth]
        exact decide_eq_decide.mpr (by omega)
      have hnext : levels = 0 → g₁.next = [] := by
        rintro rfl
        exact collectLevel_next hscan
      obtain ⟨n, hn⟩ := ih hrest (show depth + 1 + levels = c.maxCallDepth by omega) hnext
      have hsteps := steps_level (i := i) (c := c) depth level { g with next := [] }
      rw [List.map_nil, List.append_nil, ← hdeeper, map_eq_pure_bind] at hsteps
      refine ⟨level.length + n, ?_⟩
      rw [steps_add, hsteps]
      refine Yields.bind (a := ofLevel (depth + 1) g₁) ?_ hn
      exact hscan.bind (yields_pure.mpr ⟨rfl, rfl, rfl⟩)

/-- A queue collects the graph of a query, and comes to an end with it. -/
theorem collectGraph_by_queue {root : Frame} (h : Yields (collectGraph i c root) r w g r' w')
    (hd : 1 ≤ c.maxCallDepth) : ∃ n, ∀ m, n ≤ m →
      Yields (Queue.steps i c m (.start root)) r w ⟨{ g with next := [] }, []⟩ r' w' := by
  obtain ⟨n, hn⟩ := Queue.steps_collectLevels h (Nat.zero_add _) (by omega)
  refine ⟨n, fun m hm => ?_⟩
  obtain ⟨k, rfl⟩ := Nat.exists_eq_add_of_le hm
  rw [Queue.steps_add]
  refine Yields.bind hn ?_
  rw [Queue.steps_empty]
  rfl

end ContractAudit.Throws
