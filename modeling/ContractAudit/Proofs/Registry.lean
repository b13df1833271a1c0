import ContractAudit.Hierarchy.Build
import Mathlib.Data.List.Nodup

/-! The places that a table keeps by name. Main statement: at every moment of a build they are where
a search of the types would end, so the build goes as if each declaration was looked for among the
types. -/
namespace ContractAudit

open Source

theorem findClass?_eq_findIdx? (cs : List ClassInfo) (key : String) :
    findClass? cs key = (cs.findIdx? (·.key == key)).bind (cs[·]?) := by
  rw [findClass?]
  induction cs with
  | nil => rfl
  | cons c cs ih =>
    rw [List.find?_cons, List.findIdx?_cons]
    cases c.key == key with
    | true => rfl
    | false =>
      simp only [Bool.false_eq_true, if_false, ih, Option.bind_map]
      rfl

namespace Index

/-- The built-in types alone. -/
def builtin : Index := ⟨Builtin.classes, []⟩

/-- Adds a declaration, unless there is one with its key. -/
def insert (i : Index) (c : ClassInfo) : Index :=
  match i.get? c.name with
  | some _ => i
  | none => { i with classes := i.classes ++ [c] }

def insertEvents (i : Index) (c : ClassInfo) : List Event :=
  match i.get? c.name with
  | some kept => [.duplicate c.name c.file kept.file]
  | none => []

def insertAll (i : Index) (cs : List ClassInfo) : Work Index :=
  cs.foldlM (fun i c => do
    Work.tellAll (i.insertEvents c)
    return i.insert c) i

def addBlock (file : Path) (i : Index) (b : NamespaceBlock) : Work Index := do
  Work.tellAll b.shadowEvents
  i.insertAll (b.classes file)

def addFile (i : Index) (path : Path) : Work Index := do
  match ← Workspace.parse path with
  | none => return { i with unparsed := i.unparsed ++ [path] }
  | some f => f.program.blocks.foldlM (addBlock f.path) i

/-- A build that keeps no places and searches the types instead. -/
def assemble (paths : List Path) : Work Index := do
  let declared ← paths.foldlM addFile builtin
  Work.tellAll (declared.undeclaredTraits.map .traitUndeclared)
  let i := declared.applyTraits
  Work.tell (.indexed (i.classes.filter (!·.isBuiltin)).length paths.length i.unparsed.length)
  return i

end Index

namespace Registry

/-- The places are those of the first types with the keys. -/
def Faithful (r : Registry) : Prop :=
  ∀ key, r.byName.lookup key = r.classes.findIdx? (·.key == key)

variable {r : Registry}

theorem Faithful.get? (h : r.Faithful) (name : String) : r.get? name = r.toIndex.get? name := by
  rw [Registry.get?, place?, h, Index.get?, findClass?_eq_findIdx?]

theorem Faithful.insertEvents (h : r.Faithful) (c : ClassInfo) :
    r.insertEvents c = r.toIndex.insertEvents c := by
  rw [Registry.insertEvents, h.get?]
  rfl

theorem Faithful.place?_eq_none_iff (h : r.Faithful) (name : String) :
    r.place? name = none ↔ r.toIndex.get? name = none := by
  rw [place?, h, Index.get?, findClass?, List.findIdx?_eq_none_iff, List.find?_eq_none]
  simp

/- A declaration finds its place taken exactly if the search finds a type. -/
theorem Faithful.insert (h : r.Faithful) (c : ClassInfo) :
    (r.insert c).Faithful ∧ (r.insert c).toIndex = r.toIndex.insert c := by
  have hnone := h.place?_eq_none_iff c.name
  rw [Registry.insert, Index.insert]
  cases hplace : r.place? c.name with
  | some n =>
    obtain ⟨kept, hget⟩ : ∃ kept, r.toIndex.get? c.name = some kept := by
      refine Option.ne_none_iff_exists'.mp fun hget => ?_
      rw [hnone.mpr hget] at hplace
      cases hplace
    rw [hget]
    exact ⟨h, rfl⟩
  | none =>
    rw [hnone.mp hplace]
    refine ⟨fun key => ?_, rfl⟩
    have hlast : [(classKey c.name, r.classes.length)].lookup key =
        ([c].findIdx? (·.key == key)).map (· + r.classes.length) := by
      rw [List.findIdx?_singleton, c.key_eq, List.lookup_cons, BEq.comm]
      cases classKey c.name == key with
      | true => simp
      | false => rfl
    rw [List.lookup_append, h, hlast, List.findIdx?_append]

theorem Faithful.foldl_insert (h : r.Faithful) (cs : List ClassInfo) :
    (cs.foldl Registry.insert r).Faithful ∧
      (cs.foldl Registry.insert r).toIndex = cs.foldl Index.insert r.toIndex := by
  induction cs generalizing r with
  | nil => exact ⟨h, rfl⟩
  | cons c cs ih =>
    obtain ⟨hnext, hindex⟩ := h.insert c
    rw [List.foldl_cons, List.foldl_cons, ← hindex]
    exact ih hnext

theorem Faithful.applyTraits (h : r.Faithful) : r.applyTraits.Faithful := by
  intro key
  refine (h key).trans ?_
  change _ = (r.classes.map _).findIdx? _
  rw [List.findIdx?_map]
  rfl

/-- Both do the same, one with places and one without. -/
def Tracks (m : Work Registry) (n : Work Index) : Prop :=
  ∀ w, (m.run w).1.Faithful ∧ n.run w = ((m.run w).1.toIndex, (m.run w).2)

theorem Tracks.foldlM {α : Type} {f : Registry → α → Work Registry} {g : Index → α → Work Index}
    (hstep : ∀ r a, r.Faithful → Tracks (f r a) (g r.toIndex a)) (h : r.Faithful) (as : List α) :
    Tracks (as.foldlM f r) (as.foldlM g r.toIndex) := by
  induction as generalizing r with
  | nil => exact fun w => ⟨h, rfl⟩
  | cons a as ih =>
    intro w
    obtain ⟨hnext, hrun⟩ := hstep r a h w
    rw [List.foldlM_cons, List.foldlM_cons, StateT.run_bind, StateT.run_bind, hrun]
    exact ih hnext ((f r a).run w).2

theorem Faithful.addBlock (h : r.Faithful) (file : Path) (b : NamespaceBlock) :
    Tracks (r.addBlock file b) (r.toIndex.addBlock file b) := by
  intro w
  refine Tracks.foldlM (fun r c hr w => ?_) h (b.classes file) _
  obtain ⟨hnext, hindex⟩ := hr.insert c
  rw [hr.insertEvents, ← hindex]
  exact ⟨hnext, rfl⟩

theorem Faithful.addFile (h : r.Faithful) (p : Path) :
    Tracks (r.addFile p) (r.toIndex.addFile p) := by
  intro w
  rw [Registry.addFile, Index.addFile, StateT.run_bind, StateT.run_bind]
  rcases (Workspace.parse p).run w with ⟨_ | f, w'⟩
  · exact ⟨h, rfl⟩
  · exact Tracks.foldlM (fun r b hr => hr.addBlock f.path b) h f.program.blocks w'

end Registry

theorem Builtin.keys_nodup : (Builtin.classes.map (·.key)).Nodup := by decide +kernel

namespace Index

theorem foldl_insert_of_nodup (cs : List ClassInfo) (i : Index)
    (h : ((i.classes ++ cs).map (·.key)).Nodup) :
    cs.foldl insert i = ⟨i.classes ++ cs, i.unparsed⟩ := by
  induction cs generalizing i with
  | nil => rw [List.append_nil]; rfl
  | cons c cs ih =>
    have hnew : i.get? c.name = none := by
      refine List.find?_eq_none.mpr fun d hd hkey => ?_
      rw [List.map_append, List.nodup_append] at h
      refine h.2.2 d.key (List.mem_map_of_mem hd) c.key (by simp) ?_
      rw [c.key_eq]
      exact beq_iff_eq.mp hkey
    have hinsert : i.insert c = ⟨i.classes ++ [c], i.unparsed⟩ := by
      rw [insert, hnew]
    rw [List.append_cons] at h ⊢
    rw [List.foldl_cons, hinsert]
    exact ih _ h

end Index

namespace Registry

theorem builtin_faithful : builtin.Faithful ∧ builtin.toIndex = Index.builtin := by
  have hempty : (⟨⟨[], []⟩, []⟩ : Registry).Faithful := fun _ => rfl
  obtain ⟨h, hindex⟩ := hempty.foldl_insert Builtin.classes
  exact ⟨h, hindex.trans (Index.foldl_insert_of_nodup _ _ Builtin.keys_nodup)⟩

theorem build_tracks (paths : List Path) : Tracks (build paths) (Index.assemble paths) := by
  intro w
  obtain ⟨hbuiltin, hindex⟩ := builtin_faithful
  obtain ⟨h, hrun⟩ := Tracks.foldlM (fun r p hr => hr.addFile p) hbuiltin paths w
  rw [hindex] at hrun
  rw [Index.assemble, StateT.run_bind, hrun]
  exact ⟨h.applyTraits, rfl⟩

end Registry

/-- The places make no difference to the table. -/
theorem Index.build_eq_assemble (paths : List Path) : build paths = assemble paths := by
  funext w
  exact ((Registry.build_tracks paths w).2).symm

end ContractAudit
