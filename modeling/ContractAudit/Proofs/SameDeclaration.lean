import ContractAudit.Proofs.FirstDeclared
import ContractAudit.Proofs.FrameKey
import ContractAudit.Proofs.Requests
import ContractAudit.Proofs.TypeNames
import Mathlib.Data.List.Find

/-! A method of the table and the tree of its file. Main statement: for sources held in memory, the
tree that is kept for the method's file has one declaration under the method's owner and name, and
it is the one that the method was made of. -/
namespace ContractAudit

open Source

namespace Workspace
variable {w : Workspace} {trees : Path → Option Program}

theorem entries_parse (w : Workspace) (p : Path) :
    ∃ more, ((parse p).run w).2.entries = w.entries ++ more := by
  rw [parse_run]
  cases w.cached? (w.loader.key p) with
  | some found => exact ⟨[], (List.append_nil _).symm⟩
  | none => exact ⟨_, rfl⟩

theorem cached?_parseAll {k : Path} {found : Option ParsedFile} (h : w.cached? k = some found)
    (ps : List Path) : ((parseAll ps).run w).2.cached? k = some found := by
  induction ps generalizing w with
  | nil => exact h
  | cons p ps ih =>
    obtain ⟨more, hmore⟩ := w.entries_parse p
    exact ih (cached?_append hmore h)

/- A tree stands under its own path, and it is the tree of that path. -/
theorem Holds.kept (h : w.Holds trees) {p : Path} {f : ParsedFile}
    (hf : ((Workspace.parse p).run w).1 = some f) :
    ((Workspace.parse p).run w).2.cached? f.path = some (some f) ∧
      trees p = some f.program := by
  constructor
  · rw [cached?_congr (h.path_same hf), ← hf]
    simpa [h.key] using w.cached?_parse p
  · rw [← h.gives.tree p (Set.mem_univ p), tree?, hf]
    rfl

theorem Holds.parseAll_kept (h : w.Holds trees) (ps : List Path) :
    ∀ e ∈ ((parseAll ps).run w).1, ∀ f, e.2 = some f →
      ((parseAll ps).run w).2.cached? f.path = some (some f) ∧
        ∃ p, trees p = some f.program := by
  induction ps generalizing w with
  | nil =>
    intro e he
    cases he
  | cons p ps ih =>
    intro e he f hf
    rcases List.mem_cons.mp he with rfl | he
    · obtain ⟨hentry, htree⟩ := h.kept hf
      exact ⟨cached?_parseAll hentry ps, p, htree⟩
    · exact ih (h.parse p) e he f hf

end Workspace

theorem Index.addFiles_entries (ps : List Path) (i : Index) (w : Workspace) (events : List Event) :
    ((ps.foldlM addFile i).run { w with events }).2.entries =
      ((Workspace.parseAll ps).run w).2.entries := by
  induction ps generalizing i w events with
  | nil => rfl
  | cons p ps ih =>
    obtain ⟨j, events', hrun, _⟩ := addFile_run i p w events
    rw [List.foldlM_cons, StateT.run_bind, hrun]
    exact ih j _ events'

theorem Index.build_entries (paths : List Path) (w : Workspace) :
    ((build paths).run w).2.entries = ((Workspace.parseAll paths).run w).2.entries := by
  rw [build_eq_assemble]
  exact addFiles_entries paths builtin w w.events

theorem tree?_inMemory {files : List (Path × String)} {p : Path} {program : Program}
    (h : (inMemory files).tree? p = some program) :
    ∃ source q, Program.ofSource source = .ok q ∧ program = q.resolve := by
  rw [Workspace.tree?_eq] at h
  obtain ⟨source, _, hsource⟩ := Option.bind_eq_some_iff.mp h
  obtain ⟨q, hq, rfl⟩ := Option.map_eq_some_iff.mp hsource
  refine ⟨source, q, ?_, rfl⟩
  cases hread : Program.ofSource source with
  | error e =>
    rw [hread] at hq
    cases hq
  | ok q' =>
    rw [hread] at hq
    cases hq
    rfl

structure TypeSite where
  file : ParsedFile
  block : NamespaceBlock
  type : TypeDecl

/-- What the table knows of the type before traits are copied. -/
def TypeSite.info (s : TypeSite) : ClassInfo :=
  .ofDecl (NameContext.ofBlock s.block) s.file.path s.type

def ParsedFile.sites (f : ParsedFile) : List TypeSite :=
  f.program.blocks.flatMap fun b => b.types.map (⟨f, b, ·⟩)

/-- The declarations of the files that have a tree, in the order of the files. -/
def sitesFound (found : List (Path × Option ParsedFile)) : List TypeSite :=
  found.flatMap fun f => f.2.toList.flatMap (·.sites)

theorem ParsedFile.types_eq_map_sites (f : ParsedFile) : f.types = f.sites.map (·.info) := by
  simp only [types, sites, NamespaceBlock.classes, List.map_flatMap, List.map_map]
  rfl

theorem ParsedFile.map_type_sites (f : ParsedFile) : f.sites.map (·.type) = f.program.types := by
  simp only [sites, Program.types, List.map_flatMap, List.map_map]
  congr 1
  funext b
  exact List.map_id _

theorem ParsedFile.file_of_mem_sites {f : ParsedFile} {s : TypeSite} (h : s ∈ f.sites) :
    s.file = f := by
  obtain ⟨b, _, hs⟩ := List.mem_flatMap.mp h
  obtain ⟨t, _, rfl⟩ := List.mem_map.mp hs
  rfl

theorem typesFound_eq_map_sites (found : List (Path × Option ParsedFile)) :
    typesFound found = (sitesFound found).map (·.info) := by
  simp only [typesFound, sitesFound, List.map_flatMap, ParsedFile.types_eq_map_sites]

/- The first of all files is the first in its file. -/
theorem find?_sitesFound {found : List (Path × Option ParsedFile)} {q : TypeSite → Bool}
    {s : TypeSite} (h : (sitesFound found).find? q = some s) :
    (∃ e ∈ found, e.2 = some s.file) ∧ s.file.sites.find? q = some s := by
  rw [sitesFound, List.find?_flatMap] at h
  obtain ⟨e, he, hs⟩ := List.exists_of_findSome?_eq_some h
  rw [List.find?_flatMap] at hs
  obtain ⟨f, hf, hs⟩ := List.exists_of_findSome?_eq_some hs
  have hfile := ParsedFile.file_of_mem_sites (List.mem_of_find?_eq_some hs)
  rw [hfile]
  exact ⟨⟨e, he, Option.mem_toList.mp hf⟩, hs⟩

/- In a tree that was read, a name is found by the rule of the table. -/
theorem Program.type?_resolve {source : String} {q : Program} (h : ofSource source = .ok q)
    (name : String) :
    q.resolve.type? name = q.resolve.types.find? (sameClass ·.fullName name) := by
  refine List.find?_congr fun t ht => ?_
  rw [sameClass, Program.fullName_unrooted h t ht]

/- Of the methods that a class takes over, the first of a name is also the first in its trait, since
whether one is wanted depends on the name alone. -/
theorem Index.ownMethod?_of_mem_adopted {i : Index} {c : ClassInfo} {m : MethodInfo}
    (h : m ∈ i.adopted c) :
    ∃ t ∈ i.classes, ∃ d, t.ownMethod? m.name = some d ∧ m = d.adopt c.name := by
  obtain ⟨d, hd, rfl⟩ := List.mem_map.mp h
  have hfirst := find?_of_mem_distinct (fun m n : MethodInfo => Text.same m.name n.name)
    (fun m => Text.same_refl m.name) hd
  have hwanted : (c.ownMethod? d.name).isNone = true :=
    (List.mem_filter.mp (mem_of_mem_distinct hd)).2
  have hname (n : MethodInfo) : decide ((c.ownMethod? n.name).isNone = true ∧
      Text.same n.name d.name = true) = Text.same n.name d.name := by
    cases hsame : Text.same n.name d.name with
    | false => simp
    | true => simpa [Throws.ownMethod?_congr c (beq_iff_eq.mp hsame)] using hwanted
  rw [List.find?_filter, funext hname, List.find?_flatMap] at hfirst
  obtain ⟨⟨n, t⟩, ht, hdt⟩ := List.exists_of_findSome?_eq_some hfirst
  cases t with
  | none => cases hdt
  | some t => exact ⟨t, mem_of_expandTraits ht, d, hdt, rfl⟩

/- A method that is found is the first of its name in a type as declared, or a copy of it. -/
theorem Index.method?_applyTraits {i : Index} {owner name : String} {m : MethodInfo}
    (h : i.applyTraits.method? owner name = some m) :
    ∃ c ∈ i.classes, ∃ made, c.ownMethod? m.name = some made ∧
      (m = made ∨ m = made.adopt m.declaringClass) := by
  obtain ⟨c', hc', hown⟩ := mem_of_method? h
  obtain ⟨c, hc, rfl⟩ := List.mem_map.mp hc'
  have hname : Text.same m.name name = true := by simpa using List.find?_some hown
  rw [ClassInfo.ownMethod?, List.find?_append] at hown
  rcases Option.or_eq_some_iff.mp hown with hown | ⟨_, hown⟩
  · exact ⟨c, hc, m, (Throws.ownMethod?_congr c (beq_iff_eq.mp hname)).trans hown, .inl rfl⟩
  · obtain ⟨t, ht, d, hd, rfl⟩ := ownMethod?_of_mem_adopted (List.mem_of_find?_eq_some hown)
    exact ⟨t, ht, d, hd, .inr rfl⟩

/-- A method of the table was made of a declaration of the type: the two stand at one place, which
is the first with that name, and a class may have taken the method over. -/
def MethodInfo.MadeOf (m : MethodInfo) (s : TypeSite) (d : MethodDecl) : Prop :=
  ∃ k made, s.info.methods.findIdx? (Text.same ·.name m.name) = some k ∧
    s.info.methods[k]? = some made ∧ s.type.methods[k]? = some d ∧
    (m = made ∨ m = made.adopt m.declaringClass)

namespace MethodInfo.MadeOf
variable {m made : MethodInfo} {s : TypeSite} {d : MethodDecl}

theorem exists_of_ownMethod? (hown : s.info.ownMethod? m.name = some made)
    (hm : m = made ∨ m = made.adopt m.declaringClass) : ∃ d, m.MadeOf s d := by
  obtain ⟨hname, k, hk, hmade, hbefore⟩ := List.find?_eq_some_iff_getElem.mp hown
  have hlength : k < s.type.methods.length := by simpa [TypeSite.info, ClassInfo.ofDecl] using hk
  refine ⟨s.type.methods[k], k, made, ?_, ?_, List.getElem?_eq_getElem hlength, hm⟩
  · rw [← hmade] at hname
    exact List.findIdx?_eq_some_iff_getElem.mpr ⟨hk, hname, by simpa using hbefore⟩
  · rw [List.getElem?_eq_getElem hk, hmade]

theorem method? (h : m.MadeOf s d) : s.type.method? m.name = some d := by
  obtain ⟨k, made, hfirst, _, hd, _⟩ := h
  rw [TypeSite.info, ClassInfo.ofDecl, List.findIdx?_map] at hfirst
  obtain ⟨hk, hname, hbefore⟩ := List.findIdx?_eq_some_iff_getElem.mp hfirst
  obtain ⟨_, rfl⟩ := List.getElem?_eq_some_iff.mp hd
  exact List.find?_eq_some_iff_getElem.mpr
    ⟨hname, k, hk, rfl, by simpa [MethodInfo.ofDecl] using hbefore⟩

/- A copy differs from the method in the class it belongs to and in its types only. -/
theorem agrees (h : m.MadeOf s d) :
    (d.name = m.name ∧ d.body.isNone = m.isAbstract ∧ d.doc = m.doc ∧
      d.params.map (·.name) = m.params.map (·.name) ∧ some d.span.lines = m.lines) ∧
    m.sourceOwner = s.info.name ∧ m.file = some s.file.path := by
  obtain ⟨k, made, _, hmade, hd, hm⟩ := h
  have hofDecl : made = MethodInfo.ofDecl ⟨s.type.fullName, ClassInfo.parentOf s.type⟩
      s.file.path d := by
    rw [TypeSite.info, ClassInfo.ofDecl, List.getElem?_map, hd] at hmade
    exact (Option.some.inj hmade).symm
  have hparams : d.params.map (·.name) = made.params.map (·.name) := by
    simp [hofDecl, MethodInfo.ofDecl]
  have hmoved : m.params.map (·.name) = made.params.map (·.name) := by
    rcases hm with rfl | hm
    · rfl
    · rw [hm, MethodInfo.adopt, List.map_map]
      rfl
  rw [hmoved]
  rcases hm with rfl | hm
  · subst hofDecl
    exact ⟨⟨rfl, rfl, rfl, hparams, rfl⟩, rfl, rfl⟩
  · rw [hm]
    subst hofDecl
    exact ⟨⟨rfl, rfl, rfl, hparams, rfl⟩, rfl, rfl⟩

end MethodInfo.MadeOf

theorem find?_of_mem_firstDeclared {cs : List ClassInfo} {c : ClassInfo}
    (h : c ∈ firstDeclared cs) : cs.find? (sameClass ·.name c.name) = some c :=
  find?_of_mem_distinct (fun c d : ClassInfo => sameClass c.name d.name)
    (fun c => sameClass_refl c.name) h

/- Of the first declarations, one with a file is the first of its name in the files. -/
theorem find?_site_of_firstDeclared {builtins : List ClassInfo}
    {found : List (Path × Option ParsedFile)} {c : ClassInfo}
    (hbuiltins : ∀ b ∈ builtins, b.file = none)
    (h : c ∈ firstDeclared (builtins ++ typesFound found)) (hfile : c.file ≠ none) :
    ∃ s, (sitesFound found).find? (sameClass ·.type.fullName c.name) = some s ∧ s.info = c := by
  have hfirst := find?_of_mem_firstDeclared h
  rw [List.find?_append] at hfirst
  rcases Option.or_eq_some_iff.mp hfirst with hbuiltin | ⟨_, hdeclared⟩
  · exact absurd (hbuiltins c (List.mem_of_find?_eq_some hbuiltin)) hfile
  · rw [typesFound_eq_map_sites, List.find?_map] at hdeclared
    exact Option.map_eq_some_iff.mp hdeclared

/-- In a table of files that are held in memory, take a method with a file. Its file has a tree that
is kept. In that tree the owner of the method's body is the first declaration of its name in all the
files, and under the owner and the method's name there is the declaration that the method was made
of: it has a body unless the method is abstract, and the method's comment, parameters and lines. -/
theorem Index.method?_found_in_tree (files : List (Path × String)) (paths : List Path)
    (owner name : String) (m : MethodInfo) (p : Path)
    (hm : ((Index.build paths).run (inMemory files)).1.method? owner name = some m)
    (hp : m.file = some p) :
    let run := (Index.build paths).run (inMemory files)
    let found := ((Workspace.parseAll paths).run (inMemory files)).1
    ∃ s d, run.2.cached? p = some (some s.file) ∧ s.file.path = p ∧
      (sitesFound found).find? (sameClass ·.type.fullName m.sourceOwner) = some s ∧
      (∃ more, run.1.get? m.sourceOwner = some { s.info with methods := s.info.methods ++ more }) ∧
      s.file.program.type? m.sourceOwner = some s.type ∧
      s.file.program.method? m.sourceOwner m.name = some d ∧ m.MadeOf s d ∧
      d.name = m.name ∧ d.body.isNone = m.isAbstract ∧ d.doc = m.doc ∧
      d.params.map (·.name) = m.params.map (·.name) ∧ some d.span.lines = m.lines := by
  intro run found
  let declared : Index := ⟨firstDeclared (Builtin.classes ++ typesFound found), treeless found⟩
  have hadded : ((paths.foldlM addFile builtin).run (inMemory files)).1 = declared :=
    addFiles_run paths builtin _ builtin_firstDeclared (inMemory files) []
  have hindex : run.1 = declared.applyTraits := build_eq_applyTraits paths (inMemory files)
  have hentries : run.2.entries = ((Workspace.parseAll paths).run (inMemory files)).2.entries :=
    build_entries paths (inMemory files)
  have hdeclared : Declared declared :=
    hadded ▸ foldlM_keeps builtin_declared (fun i p _ w hi => hi.addFile p w) (inMemory files)
  change run.1.method? owner name = some m at hm
  rw [hindex] at hm ⊢
  obtain ⟨c, hc, made, hown, hmade⟩ := method?_applyTraits hm
  have hcfile : c.file = some p := by
    rw [← (hdeclared.own c hc made (List.mem_of_find?_eq_some hown)).2.2, ← hp]
    rcases hmade with rfl | hmade
    · rfl
    · rw [hmade]
      rfl
  obtain ⟨s, hfirst, rfl⟩ := find?_site_of_firstDeclared builtin_file hc (by simp [hcfile])
  obtain ⟨d, hd⟩ := MethodInfo.MadeOf.exists_of_ownMethod? hown hmade
  obtain ⟨hagree, howner, hfile⟩ := hd.agrees
  have hpath : s.file.path = p := Option.some.inj (hfile.symm.trans hp)
  obtain ⟨⟨e, he, hef⟩, hinfile⟩ := find?_sitesFound hfirst
  obtain ⟨hentry, q, htree⟩ := (memory_holds files).parseAll_kept paths e he s.file hef
  obtain ⟨source, parsed, hparsed, hprogram⟩ := tree?_inMemory htree
  have htype : s.file.program.type? m.sourceOwner = some s.type := by
    rw [hprogram, Program.type?_resolve hparsed, ← hprogram, ← ParsedFile.map_type_sites,
      List.find?_map, howner]
    exact congrArg (Option.map (·.type)) hinfile
  refine ⟨s, d, ?_, hpath, ?_, ?_, htype, ?_, hd, hagree⟩
  · rw [Workspace.cached?, hentries, ← hpath]
    exact hentry
  · rw [howner]
    exact hfirst
  · rw [howner, get?_applyTraits, get?_firstDeclared, find?_of_mem_firstDeclared hc]
    exact ⟨_, rfl⟩
  · rw [Program.method?, htype]
    exact hd.method?

namespace Sample

/-- A trait has a method twice and is itself declared again, in its file and in the one of the class
that uses it. -/
def twice : List (Path × String) :=
  [(⟨"a.php"⟩, "<?php trait T {function run() {throw new E;} function RUN($x) {}} class t {}"),
    (⟨"b.php"⟩, "<?php class C {use t;} trait T {}")]

def twicePaths : List Path := [⟨"a.php"⟩, ⟨"b.php"⟩]

/-- The first method of the trait, as a class has it. -/
def runOf (owner : String) : MethodInfo :=
  ⟨"run", owner, "T", .publicly, false, false, none, none, [], some (1, 1), some ⟨"a.php"⟩⟩

def runTrait : ClassInfo :=
  { name := "T", kind := .traitType, parent := none, interfaces := [], traits := []
    isAbstract := false, file := some ⟨"a.php"⟩, context := .global
    methods := [runOf "T", { runOf "T" with name := "RUN", params := [⟨"x", none⟩] }] }

def runUser : ClassInfo :=
  { name := "C", kind := .classType, parent := none, interfaces := [], traits := ["t"]
    isAbstract := false, file := some ⟨"b.php"⟩, context := .global, methods := [] }

theorem twice_method? :
    ((Index.build twicePaths).run (inMemory twice)).1.method? "c" "Run" = some (runOf "C") := by
  rw [Index.build_eq_assemble]
  let declared := ((twicePaths.foldlM Index.addFile Index.builtin).run (inMemory twice)).1
  obtain ⟨htrait, huser⟩ :
      declared.get? "t" = some runTrait ∧ declared.get? "c" = some runUser := by decide +kernel
  have hadopted : declared.adopted runUser = [runOf "C"] := by
    rw [Index.adopted, Index.traitsOf_one rfl htrait rfl rfl]
    decide +kernel
  have hget : declared.applyTraits.get? "c" = some { runUser with methods := [runOf "C"] } := by
    rw [Index.get?_applyTraits, huser, ← hadopted]
    rfl
  have hfound := Index.lineage_of_some hget
  change declared.applyTraits.method? "c" "Run" = _
  rw [Index.method?_eq_findSome?, Index.declarations, hfound]
  rfl

end Sample

theorem Index.method?_found_in_tree_sample :
    ((Index.build Sample.twicePaths).run (inMemory Sample.twice)).1.method? "c" "Run" =
      some (Sample.runOf "C") ∧
    (Sample.runOf "C").file = some ⟨"a.php"⟩ ∧
    ∃ s d, s.file.path = ⟨"a.php"⟩ ∧ s.file.program.method? "T" "run" = some d ∧
      (Sample.runOf "C").MadeOf s d ∧ d.body.isSome = true ∧ d.params.map (·.name) = [] := by
  obtain ⟨s, d, _, hpath, _, _, _, hfound, hmade, _, hbody, _, hparams, _⟩ :=
    Index.method?_found_in_tree Sample.twice Sample.twicePaths "c" "Run" (Sample.runOf "C")
      ⟨"a.php"⟩ Sample.twice_method? rfl
  have hsome : d.body.isSome = true := by
    rw [← Option.not_isNone, hbody]
    rfl
  exact ⟨Sample.twice_method?, rfl, s, d, hpath, hfound, hmade, hsome, hparams⟩

end ContractAudit
