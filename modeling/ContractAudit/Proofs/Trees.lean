import ContractAudit.Workspace
import Mathlib.Data.Set.Defs

/-! The tree of a file, asked for at different times. Main statement: where paths that are taken for
one file are read alike, a workspace gives for each path one tree, whatever it was asked before. -/
namespace ContractAudit

open Source

theorem Source.Path.same_iff {p q : Path} : p.same q = true ↔ p.components = q.components := by
  rw [Path.same, beq_iff_eq]

namespace Workspace
variable {w : Workspace} {p q k k' : Path}

theorem cached?_congr (h : k.same k' = true) : w.cached? k = w.cached? k' := by
  unfold cached?
  simp only [Path.same, Path.same_iff.mp h]

/-- The tree that comes of what was read. -/
def treeOf (found : Except ReadError String) : Option Program :=
  found.toOption.bind fun source => (Program.ofSource source).toOption.map (·.resolve)

theorem parseSource_tree (key : Path) (reading : Nat) (found : Except ReadError String) :
    (parseSource key reading found).1.map (·.program) = treeOf found := by
  cases found with
  | error => rfl
  | ok source =>
    rw [treeOf, parseSource]
    cases h : Program.ofSource source <;> simp [h, Except.toOption]

/-- What asking for a file leaves, if it was not asked for before. -/
def adding (w : Workspace) (key : Path) : Workspace :=
  { w with
    entries := w.entries ++ [(key, (parseSource key (w.reads + 1) (w.loader.read key)).1)]
    reads := w.reads + 1
    events := (parseSource key (w.reads + 1) (w.loader.read key)).2.reverse ++ w.events }

theorem parse_run (w : Workspace) (p : Path) : (parse p).run w =
    match w.cached? (w.loader.key p) with
    | some found => (found, w)
    | none => ((parseSource (w.loader.key p) (w.reads + 1) (w.loader.read (w.loader.key p))).1,
        w.adding (w.loader.key p)) := by
  cases he : w.cached? (w.loader.key p) <;> simp [parse, he] <;> rfl

/-- The tree of a path, as a workspace has it or would make it. -/
def tree? (w : Workspace) (p : Path) : Option Program := ((parse p).run w).1.map (·.program)

theorem tree?_eq (w : Workspace) (p : Path) : w.tree? p =
    match w.cached? (w.loader.key p) with
    | some found => found.map (·.program)
    | none => treeOf (w.loader.read (w.loader.key p)) := by
  rw [tree?, parse_run]
  cases w.cached? (w.loader.key p) with
  | some found => rfl
  | none => exact parseSource_tree _ _ _

theorem cached?_adding (k : Path) : (w.adding k).cached? k' =
    match w.cached? k' with
    | some found => some found
    | none =>
      if k.same k' then some (parseSource k (w.reads + 1) (w.loader.read k)).1 else none := by
  unfold cached?
  simp only [adding, List.find?_append, List.find?_singleton]
  cases w.entries.find? (·.1.same k') with
  | some => rfl
  | none =>
    rw [Option.none_or]
    dsimp only [Option.map_none]
    split <;> rfl

/-- For the paths `among` a workspace gives these trees, and of such paths those that are taken for
one file are read alike. -/
structure Gives (among : Set Path) (trees : Path → Option Program) (w : Workspace) : Prop where
  alike : ∀ p ∈ among, ∀ q ∈ among, (w.loader.key p).same (w.loader.key q) = true →
    (w.loader.read (w.loader.key p)).toOption = (w.loader.read (w.loader.key q)).toOption
  tree : ∀ p ∈ among, w.tree? p = trees p

variable {among : Set Path} {trees : Path → Option Program}

theorem Gives.told (h : Gives among trees w) (events : List Event) :
    Gives among trees { w with events } := by
  refine ⟨h.alike, ?_⟩
  intro p hp
  rw [← h.tree p hp, tree?_eq, tree?_eq]
  rfl

/- The tree of another path changes only if it is taken for the same file, and then it is the one
that it would have been. -/
theorem Gives.parse (h : Gives among trees w) (hp : p ∈ among) :
    Gives among trees ((Workspace.parse p).run w).2 := by
  rw [parse_run]
  cases hentry : w.cached? (w.loader.key p) with
  | some found => exact h
  | none =>
    refine ⟨h.alike, ?_⟩
    intro q hq
    rw [← h.tree q hq, tree?_eq, tree?_eq]
    have hkey : (w.adding (w.loader.key p)).loader = w.loader := rfl
    rw [hkey, cached?_adding]
    cases hq' : w.cached? (w.loader.key q) with
    | some found => rfl
    | none =>
      cases hsame : (w.loader.key p).same (w.loader.key q) with
      | false => rfl
      | true =>
        have hread := h.alike p hp q hq hsame
        rw [if_pos rfl]
        simp only [parseSource_tree, treeOf, hread]

theorem Gives.congr (h : Gives among trees w) (hp : p ∈ among) (hq : q ∈ among)
    (hsame : (w.loader.key p).same (w.loader.key q) = true) : trees p = trees q := by
  rw [← h.tree p hp, ← h.tree q hq, tree?_eq, tree?_eq, cached?_congr hsame]
  cases w.cached? (w.loader.key q) with
  | some found => rfl
  | none => simp only [treeOf, h.alike p hp q hq hsame]

/- Sources in memory are found by the parts of a path. -/
theorem gives_of_memory {files : List (Path × String)} (h : w.loader = Loader.memory files)
    (among : Set Path) : Gives among w.tree? w := by
  have hread (p : Path) :
      ((Loader.memory files).read p).toOption = Loader.registered? files p := by
    rw [Loader.memory]
    cases hp : Loader.registered? files p <;> simp [hp, Except.toOption]
  refine ⟨?_, fun _ _ => rfl⟩
  intro p _ q _ hsame
  rw [h] at hsame ⊢
  have hcomponents : p.components = q.components := Path.same_iff.mp hsame
  refine (hread p).trans (Eq.trans ?_ (hread q).symm)
  simp only [Loader.registered?, Path.same, hcomponents]

end Workspace

end ContractAudit
