import ContractAudit.Proofs.Respelling
import ContractAudit.Proofs.Trees

/-! Computations run side by side in two workspaces. Main statement: where the two give the same
trees, a class is compared with its contracts with the same result, whatever the two were told and
however the files of the table are spelled. -/
namespace ContractAudit

open Source
variable {α β γ δ : Type} {R : Workspace → Workspace → Prop} {σ : Path → Path}

/-- Run from related workspaces, the second computation gives the image of what the first gives, and
leaves related workspaces. -/
def Mirrors (R : Workspace → Workspace → Prop) (F : α → β) (m : Work α) (m' : Work β) : Prop :=
  ∀ w w', R w w' → (m'.run w').1 = F (m.run w).1 ∧ R (m.run w).2 (m'.run w').2

/-- Related workspaces give the same trees and stay related, whatever is told to them. -/
structure Tallies (σ : Path → Path) (R : Workspace → Workspace → Prop) : Prop where
  told : ∀ {w w'} (es es' : List Event), R w w' →
    R { w with events := es } { w' with events := es' }
  parse : ∀ {w w'} (p : Path), R w w' → w'.tree? (σ p) = w.tree? p ∧
    R ((Workspace.parse p).run w).2 ((Workspace.parse (σ p)).run w').2

/-- Two workspaces that differ at most in their logs. -/
def SameButLog (w w' : Workspace) : Prop := ∃ events, w' = { w with events }

theorem SameButLog.told {w w' : Workspace} (h : SameButLog w w') (events : List Event) :
    SameButLog w { w' with events } := by
  obtain ⟨_, rfl⟩ := h
  exact ⟨events, rfl⟩

theorem sameButLog_tallies : Tallies id SameButLog where
  told es es' h := by
    obtain ⟨_, rfl⟩ := h
    exact ⟨es', rfl⟩
  parse := by
    rintro w _ p ⟨es, rfl⟩
    rw [Workspace.tree?, Workspace.tree?, Workspace.parse_run, Workspace.parse_run]
    have hentry (key : Path) : Workspace.cached? { w with events := es } key = w.cached? key := rfl
    dsimp only [id]
    rw [hentry]
    cases w.cached? (w.loader.key p) with
    | some found => exact ⟨rfl, es, rfl⟩
    | none => exact ⟨rfl, _, rfl⟩

theorem gives_tallies {trees : Path → Option Program} (hσ : ∀ p, trees (σ p) = trees p) :
    Tallies σ fun w w' => w.Gives Set.univ trees ∧ w'.Gives Set.univ trees where
  told es es' h := ⟨h.1.told es, h.2.told es'⟩
  parse p h := by
    refine ⟨?_, h.1.parse trivial, h.2.parse trivial⟩
    rw [h.1.tree p trivial, h.2.tree _ trivial, hσ]

namespace Mirrors

theorem pure (F : α → β) (a : α) : Mirrors R F (Pure.pure a) (Pure.pure (F a)) :=
  fun _ _ hr => ⟨rfl, hr⟩

theorem bind {F : α → β} {G : γ → δ} {m : Work α} {m' : Work β} {f : α → Work γ}
    {f' : β → Work δ} (h : Mirrors R F m m') (hf : ∀ a, Mirrors R G (f a) (f' (F a))) :
    Mirrors R G (m >>= f) (m' >>= f') := by
  intro w w' hr
  obtain ⟨ha, hr⟩ := h w w' hr
  have hrest := hf (m.run w).1 _ _ hr
  rw [← ha] at hrest
  exact hrest

theorem tellAll (ht : Tallies σ R) (es es' : List Event) :
    Mirrors R id (Work.tellAll es) (Work.tellAll es') :=
  fun _ _ hr => ⟨rfl, ht.told _ _ hr⟩

end Mirrors

namespace Throws

/-- The same of computations with a resolver, which both start from and end with. -/
def Follows (R : Workspace → Workspace → Prop) (F : α → β) (m : Resolve α) (m' : Resolve β) :
    Prop :=
  ∀ r, Mirrors R (Prod.map F id) (m.run r) (m'.run r)

namespace Follows

theorem pure (F : α → β) (a : α) : Follows R F (Pure.pure a) (Pure.pure (F a)) :=
  fun _ _ _ hr => ⟨rfl, hr⟩

theorem bind {F : α → β} {G : γ → δ} {m : Resolve α} {m' : Resolve β} {f : α → Resolve γ}
    {f' : β → Resolve δ} (h : Follows R F m m') (hf : ∀ a, Follows R G (f a) (f' (F a))) :
    Follows R G (m >>= f) (m' >>= f') := by
  intro r
  rw [StateT.run_bind, StateT.run_bind]
  exact (h r).bind fun a => hf a.1 a.2

theorem get : Follows R id (MonadState.get : Resolve Resolver) MonadState.get :=
  fun _ _ _ hr => ⟨rfl, hr⟩

theorem update (f : Resolver → Resolver) :
    Follows R id (modify f : Resolve Unit) (modify f) :=
  fun _ _ _ hr => ⟨rfl, hr⟩

theorem tell (ht : Tallies σ R) (e e' : Event) :
    Follows R id (Work.tell e : Resolve Unit) (Work.tell e') :=
  fun _ _ _ hr => ⟨rfl, ht.told _ _ hr⟩

theorem lift {F : α → β} {m : Work α} {m' : Work β} (h : Mirrors R F m m') :
    Follows R F (m : Resolve α) (m' : Resolve β) := by
  intro r w w' hr
  obtain ⟨ha, hr⟩ := h w w' hr
  exact ⟨congrArg (·, r) ha, hr⟩

theorem foldlM {F : α → β} {G : γ → δ} {f : α → γ → Resolve α} {f' : β → δ → Resolve β}
    (h : ∀ a c, Follows R F (f a c) (f' (F a) (G c))) (cs : List γ) (a : α) :
    Follows R F (cs.foldlM f a) ((cs.map G).foldlM f' (F a)) := by
  induction cs generalizing a with
  | nil => exact pure F a
  | cons c cs ih =>
    rw [List.map_cons, List.foldlM_cons, List.foldlM_cons]
    exact (h a c).bind ih

theorem mapM {F : α → β} {G : γ → δ} {f : α → Resolve γ} {f' : β → Resolve δ}
    (h : ∀ a, Follows R G (f a) (f' (F a))) (as : List α) :
    Follows R (List.map G) (as.mapM f) ((as.map F).mapM f') := by
  induction as with
  | nil => exact pure (List.map G) []
  | cons a as ih =>
    rw [List.map_cons, List.mapM_cons, List.mapM_cons]
    exact (h a).bind fun c => ih.bind fun cs => pure (List.map G) (c :: cs)

end Follows

/-- A graph on the way, the files of its frames spelled otherwise. -/
def Collected.respell (σ : Path → Path) (g : Collected) : Collected :=
  { g with next := g.next.map (·.respell σ) }

theorem target_respell (deeper : Bool) (r : Resolver) (g : Collected) (f : Frame) :
    (g.respell σ).target deeper r (f.respell σ) =
      Prod.map (·.respell σ) id (g.target deeper r f) := by
  have hkey : (f.respell σ).key = f.key := rfl
  have hkeys : (g.respell σ).keys = g.keys := rfl
  rw [Collected.target, Collected.target, hkey, hkeys]
  cases r.known? f.key with
  | some s => rfl
  | none =>
    cases g.keys.idxOf? f.key with
    | some position => rfl
    | none =>
      cases deeper with
      | false => rfl
      | true => simp [Collected.respell]

section
variable {i j : Index} (ht : Tallies σ R) (h : Index.Respells σ i j) (c : Config)
include ht

/- The body of a method is read off the tree of its file. -/
theorem body?_mirrors (m : MethodInfo) : Mirrors R id (body? m) (body? (m.respell σ)) := by
  intro w w' hr
  have hfile : (m.respell σ).file = m.file.map σ := rfl
  rw [body?_run, body?_run, hfile]
  cases m.file with
  | none => exact ⟨rfl, hr⟩
  | some file =>
    obtain ⟨htree, hr⟩ := ht.parse file hr
    have hbody := congrArg
      (Option.bind · fun p => (p.method? m.sourceOwner m.name).bind (·.body)) htree
    simp only [Workspace.tree?, Option.bind_map] at hbody
    exact ⟨hbody, hr⟩

include h

theorem scanMethod_mirrors (f : Frame) :
    Mirrors R id (scanMethod i c f) (scanMethod j c (f.respell σ)) := by
  refine (body?_mirrors ht f.method).bind fun body => ?_
  cases body with
  | none => exact .pure id _
  | some body =>
    have hsum : summarize (settingOf j c (f.respell σ)) (f.respell σ).method.params body =
        summarize (settingOf i c f) f.method.params body := by
      rw [settingOf_respells h]
      exact summarize_respells h rfl _ body
    dsimp only [id]
    rw [hsum]
    exact (Mirrors.tellAll ht _ _).bind fun _ => .pure id _

theorem frame?_follows (thisClass lookupClass method : String) :
    Follows R (Option.map (Frame.respell σ)) (frame? i thisClass lookupClass method)
      (frame? j thisClass lookupClass method) := by
  unfold frame?
  rw [h.method?]
  cases i.method? lookupClass method with
  | some m => exact .pure (Option.map (Frame.respell σ)) (some ⟨thisClass, m⟩)
  | none => exact (Follows.tell ht _ _).bind fun _ => .pure (Option.map (Frame.respell σ)) none

theorem summaryOf_follows (f : Frame) :
    Follows R id (summaryOf i c f) (summaryOf j c (f.respell σ)) := by
  refine Follows.get.bind fun r => ?_
  have hkey : (f.respell σ).key = f.key := rfl
  dsimp only [id]
  rw [hkey]
  cases r.summary? f.key with
  | some s => exact .pure id s
  | none =>
    refine (Follows.lift (scanMethod_mirrors ht h c f)).bind fun s => ?_
    exact (Follows.update _).bind fun _ => .pure id s

theorem followSite_follows (deeper : Bool) (g : Collected) (site : CallSite) :
    Follows R (Prod.map (Collected.respell σ) id) (followSite i deeper g site)
      (followSite j deeper (g.respell σ) site) := by
  refine (frame?_follows ht h _ _ _).bind fun f => ?_
  cases f with
  | none => exact .pure (Prod.map (Collected.respell σ) id) (g, none)
  | some f =>
    refine Follows.get.bind fun r => ?_
    dsimp only [id, Option.map_some]
    rw [target_respell]
    exact .pure (Prod.map (Collected.respell σ) id)
      ((g.target deeper r f).1, (g.target deeper r f).2.map (Edge.mk · site.caught))

theorem followSites_follows (deeper : Bool) (g : Collected) (sites : List CallSite) :
    Follows R (Prod.map (Collected.respell σ) id) (followSites i deeper g sites)
      (followSites j deeper (g.respell σ) sites) := by
  induction sites generalizing g with
  | nil => exact .pure (Prod.map (Collected.respell σ) id) (g, [])
  | cons site sites ih =>
    refine (followSite_follows ht h deeper g site).bind fun ⟨g, edge⟩ => ?_
    refine (ih g).bind fun ⟨g, edges⟩ => ?_
    exact .pure (Prod.map (Collected.respell σ) id) (g, edge.toList ++ edges)

theorem collectNode_follows (deeper : Bool) (g : Collected) (f : Frame) :
    Follows R (Collected.respell σ) (collectNode i c deeper g f)
      (collectNode j c deeper (g.respell σ) (f.respell σ)) := by
  refine (summaryOf_follows ht h c f).bind fun s => ?_
  refine (followSites_follows ht h deeper g s.calls).bind fun ⟨g, edges⟩ => ?_
  exact .pure (Collected.respell σ) { g with nodes := g.nodes ++ [⟨f.key, s.raised, edges⟩] }

theorem collectLevels_follows (levels : Nat) (level : List Frame) (g : Collected) :
    Follows R (Collected.respell σ) (collectLevels i c levels level g)
      (collectLevels j c levels (level.map (Frame.respell σ)) (g.respell σ)) := by
  induction levels generalizing level g with
  | zero => exact .pure (Collected.respell σ) g
  | succ levels ih =>
    rw [collectLevels, collectLevels, List.isEmpty_map]
    split
    · exact .pure (Collected.respell σ) g
    · refine (Follows.foldlM (collectNode_follows ht h c _) level { g with next := [] }).bind ?_
      exact fun g => ih g.next g

theorem solve_follows (owner method : String) (root : Frame) :
    Follows R id (solve i c owner method root) (solve j c owner method (root.respell σ)) := by
  refine (collectLevels_follows ht h c _ [root] (.start root)).bind fun g => ?_
  have houtcomes : Graph.outcomes j g.nodes = Graph.outcomes i g.nodes := by
    have hpassed : Graph.passed j = Graph.passed i := by
      funext results e
      simp only [Graph.passed, isCaught_respells h]
    have hround : Graph.round j = Graph.round i := by
      funext nodes results
      simp only [Graph.round, Graph.gain, hpassed]
    have hrounds (n : Nat) (results : List NameSet) :
        Graph.rounds j g.nodes n results = Graph.rounds i g.nodes n results := by
      induction n generalizing results with
      | zero => rfl
      | succ n ih => simp only [Graph.rounds, hround, ih]
    exact hrounds _ _
  refine (Follows.tell ht _ _).bind fun _ => ?_
  change Follows R id _ (if g.truncated then _ else _)
  rw [show (g.respell σ).nodes = g.nodes from rfl, houtcomes]
  split
  · exact (Follows.tell ht _ _).bind fun _ => .pure id _
  · exact (Follows.update _).bind fun _ => .pure id _

theorem methodThrows_follows (owner method : String) :
    Follows R id (methodThrows i c owner method) (methodThrows j c owner method) := by
  refine (frame?_follows ht h _ _ _).bind fun root => ?_
  cases root with
  | none => exact .pure id ∅
  | some root =>
    have hkey : (root.respell σ).key = root.key := rfl
    refine Follows.get.bind fun r => ?_
    dsimp only [id, Option.map_some]
    rw [hkey]
    cases r.known? root.key with
    | some s => exact .pure id s
    | none =>
      dsimp only
      split
      · exact .pure id ∅
      · exact solve_follows ht h c owner method root

end

end Throws

namespace Contract
open Throws
variable {i j : Index} (ht : Tallies σ R) (h : Index.Respells σ i j) (c : Config)
include ht h

theorem compareMethod_follows (subject contract : ClassInfo) (m expected : MethodInfo) :
    Follows R id (compareMethod i c subject contract m expected)
      (compareMethod j c (subject.respell σ) (contract.respell σ) (m.respell σ)
        (expected.respell σ)) := by
  refine (Follows.tell ht _ _).bind fun _ => ?_
  refine (methodThrows_follows ht h c subject.name m.name).bind fun raised => ?_
  dsimp only [id]
  rw [faults_respells h]
  exact .pure id _

theorem compareContract_follows (subject contract : ClassInfo) :
    Follows R id (compareContract i c subject contract)
      (compareContract j c (subject.respell σ) (contract.respell σ)) := by
  unfold compareContract
  rw [pairs_respells h]
  refine (Follows.mapM (G := id) (fun x => ?_) (pairs i subject contract)).bind fun found => ?_
  · exact compareMethod_follows ht h c subject contract x.1 x.2
  · rw [List.map_id]
    exact .pure id found.flatten

theorem compareClass_mirrors (name : String) :
    Mirrors R id (compareClass i c name) (compareClass j c name) := by
  unfold compareClass
  rw [load_respells h]
  cases load i name with
  | error e => exact .pure id _
  | ok loaded =>
    obtain ⟨subject, contracts⟩ := loaded
    have hall := Follows.mapM (compareContract_follows ht h c subject) contracts .new
    refine hall.bind fun ⟨found, r⟩ => ?_
    dsimp only [Prod.map]
    rw [List.map_id]
    exact .pure id (Except.ok found.flatten)

end Contract

end ContractAudit
