import ContractAudit.Proofs.Unavailable

/-! The requests for files that a run makes of its workspace. Main statement: making the table of
files held in memory and auditing it reads each file of the list once, whether it has a tree or not,
and all requests for one file have one answer. -/
namespace ContractAudit

open Source

theorem Source.Path.same_trans {p q r : Path} (h : p.same q = true) (h' : q.same r = true) :
    p.same r = true :=
  Path.same_iff.mpr ((Path.same_iff.mp h).trans (Path.same_iff.mp h'))

/-- A request for a file: did the loader have to read it, and what came of it? -/
structure Request where
  path : Path
  read : Bool
  answer : Option ParsedFile

/-- Run in `w`, the computation makes these requests, in this order; all else it does to the
workspace is to tell events. -/
inductive Asks : {α : Type} → Work α → Workspace → List Request → Prop where
  | pure {α : Type} (a : α) (w : Workspace) : Asks (Pure.pure a) w []
  | tell (f : List Event → List Event) (w : Workspace) :
      Asks (modify fun w => { w with events := f w.events }) w []
  | parse (p : Path) (w : Workspace) : Asks (Workspace.parse p) w
      [⟨p, (w.cached? (w.loader.key p)).isNone, ((Workspace.parse p).run w).1⟩]
  | bind {α β : Type} {m : Work α} {f : α → Work β} {w : Workspace} {rs rs' : List Request} :
      Asks m w rs → Asks (f (m.run w).1) (m.run w).2 rs' → Asks (m >>= f) w (rs ++ rs')

/-- The requests for which the loader was asked. -/
def readings (rs : List Request) : List Request := rs.filter (·.read)

theorem readings_append (rs rs' : List Request) :
    readings (rs ++ rs') = readings rs ++ readings rs' := List.filter_append _ _

theorem Workspace.cached?_append {w w' : Workspace} {more : List (Path × Option ParsedFile)}
    (h : w'.entries = w.entries ++ more) {key : Path} {found : Option ParsedFile}
    (hfound : w.cached? key = some found) : w'.cached? key = some found := by
  unfold Workspace.cached? at hfound ⊢
  obtain ⟨e, he, rfl⟩ := Option.map_eq_some_iff.mp hfound
  rw [h, List.find?_append, he]
  rfl

theorem Workspace.cached?_isNone (w : Workspace) (key : Path) :
    (w.cached? key).isNone = !(w.entries.map (·.1)).any (·.same key) := by
  unfold Workspace.cached?
  rw [Option.isNone_map, List.any_map, ← List.isSome_find?, Option.not_isSome]
  rfl

namespace Asks
variable {α : Type} {m : Work α} {w : Workspace} {rs : List Request}

theorem loader (h : Asks m w rs) : (m.run w).2.loader = w.loader := by
  induction h with
  | pure | tell => rfl
  | parse p w =>
    rw [Workspace.parse_run]
    cases w.cached? (w.loader.key p) <;> rfl
  | bind _ _ ih ih' => exact ih'.trans ih

/- Each reading leaves an entry, and no other request leaves one. -/
theorem entries (h : Asks m w rs) : (m.run w).2.entries = w.entries ++
    (readings rs).map fun r => (w.loader.key r.path, r.answer) := by
  induction h with
  | pure | tell => exact (List.append_nil _).symm
  | parse p w =>
    rw [Workspace.parse_run]
    cases hentry : w.cached? (w.loader.key p) with
    | some found => exact (List.append_nil _).symm
    | none => rfl
  | @bind _ _ m f w rs rs' h _ ih ih' =>
    rw [h.loader, ih, List.append_assoc, ← List.map_append, ← readings_append] at ih'
    exact ih'

theorem reads (h : Asks m w rs) : (m.run w).2.reads = w.reads + (readings rs).length := by
  induction h with
  | pure | tell => rfl
  | parse p w =>
    rw [Workspace.parse_run]
    cases hentry : w.cached? (w.loader.key p) with
    | some found => rfl
    | none => rfl
  | @bind _ _ m f w rs rs' _ _ ih ih' =>
    rw [ih, Nat.add_assoc, ← List.length_append, ← readings_append] at ih'
    exact ih'

/- What was answered stays. -/
theorem answered (h : Asks m w rs) : ∀ r ∈ rs,
    (m.run w).2.cached? (w.loader.key r.path) = some r.answer := by
  induction h with
  | pure | tell => simp
  | parse p w =>
    intro r hr
    rw [List.mem_singleton.mp hr]
    exact Workspace.cached?_parse w p
  | @bind _ _ m f w rs rs' h h' ih ih' =>
    intro r hr
    rcases List.mem_append.mp hr with hr | hr
    · exact Workspace.cached?_append h'.entries (ih r hr)
    · rw [h.loader] at ih'
      exact ih' r hr

/- The entries are the files that were asked for, each under its first spelling. -/
theorem keys (h : Asks m w rs)
    (hw : (w.entries.map (·.1)).Pairwise fun p q => p.same q = false) :
    (m.run w).2.entries.map (·.1) =
      distinct Path.same (w.entries.map (·.1) ++ rs.map (w.loader.key ·.path)) := by
  induction h with
  | pure | tell =>
    rw [List.map_nil, List.append_nil, distinct_eq_self hw]
    rfl
  | parse p w =>
    have hnew : (distinct Path.same [w.loader.key p]).filter
        (fun q => !(w.entries.map (·.1)).any (·.same q)) =
        if (w.cached? (w.loader.key p)).isNone then [w.loader.key p] else [] := by
      rw [w.cached?_isNone]
      exact List.filter_cons
    rw [Workspace.parse_run, List.map_singleton, distinct_append, distinct_eq_self hw, hnew]
    cases w.cached? (w.loader.key p) with
    | some found => exact (List.append_nil _).symm
    | none => exact List.map_append
  | @bind _ _ m f w rs rs' h _ ih ih' =>
    have hmid := ih hw
    have hdistinct := distinct_pairwise Path.same
      (w.entries.map (·.1) ++ rs.map (w.loader.key ·.path))
    rw [← hmid] at hdistinct
    refine (ih' hdistinct).trans ?_
    rw [hmid, h.loader, List.map_append, ← List.append_assoc]
    exact distinct_distinct_append Path.same (fun _ => Path.same_iff.mpr rfl) Path.same_trans _ _

end Asks

section
variable {α β : Type} {P : Path → Prop} {Q : α → Prop} {S : β → Prop}

/-- Wherever it is run, the computation makes requests for files with `P` only, and its result has
`Q`. -/
def AsksFor (P : Path → Prop) (m : Work α) (Q : α → Prop) : Prop :=
  ∀ w, ∃ rs, Asks m w rs ∧ (∀ r ∈ rs, P r.path) ∧ Q (m.run w).1

namespace AsksFor

theorem pure {a : α} (h : Q a) : AsksFor P (Pure.pure a) Q :=
  fun w => ⟨[], .pure a w, by simp, h⟩

theorem bind {m : Work α} {f : α → Work β} (h : AsksFor P m Q)
    (hf : ∀ a, Q a → AsksFor P (f a) S) : AsksFor P (m >>= f) S := by
  intro w
  obtain ⟨rs, hasks, hpaths, ha⟩ := h w
  obtain ⟨rs', hasks', hpaths', hb⟩ := hf _ ha (m.run w).2
  refine ⟨rs ++ rs', hasks.bind hasks', ?_, hb⟩
  exact List.forall_mem_append.mpr ⟨hpaths, hpaths'⟩

theorem tell (e : Event) : AsksFor P (Work.tell e) fun _ => True :=
  fun w => ⟨[], .tell (e :: ·) w, by simp, trivial⟩

theorem tellAll (es : List Event) : AsksFor P (Work.tellAll es) fun _ => True :=
  fun w => ⟨[], .tell (es.reverse ++ ·) w, by simp, trivial⟩

theorem parse {p : Path} (h : P p) : AsksFor P (Workspace.parse p) fun _ => True :=
  fun w => ⟨_, .parse p w, by simpa using h, trivial⟩

theorem foldlM {f : α → β → Work α} {bs : List β}
    (hf : ∀ a, ∀ b ∈ bs, Q a → AsksFor P (f a b) Q) {a : α} (ha : Q a) :
    AsksFor P (bs.foldlM f a) Q := by
  induction bs generalizing a with
  | nil => exact pure ha
  | cons b bs ih =>
    rw [List.foldlM_cons]
    refine (hf a b List.mem_cons_self ha).bind fun a' ha' => ?_
    exact ih (fun a c hc => hf a c (List.mem_cons_of_mem _ hc)) ha'

end AsksFor

end

namespace Throws
variable {α β : Type} {P : Path → Prop} {Q : α → Prop} {S : β → Prop}

/-- The same of a computation with a resolver. -/
def AsksFor (P : Path → Prop) (m : Resolve α) (Q : α → Prop) : Prop :=
  ∀ r, ContractAudit.AsksFor P (m.run r) fun x => Q x.1

namespace AsksFor

theorem pure {a : α} (h : Q a) : AsksFor P (Pure.pure a) Q := fun _ => .pure h

theorem bind {m : Resolve α} {f : α → Resolve β} (h : AsksFor P m Q)
    (hf : ∀ a, Q a → AsksFor P (f a) S) : AsksFor P (m >>= f) S := by
  intro r
  rw [StateT.run_bind]
  exact (h r).bind fun x hx => hf x.1 hx x.2

theorem get : AsksFor P (MonadState.get : Resolve Resolver) fun _ => True := fun _ => .pure trivial

theorem update (f : Resolver → Resolver) : AsksFor P (modify f : Resolve Unit) fun _ => True :=
  fun _ => .pure trivial

theorem lift {m : Work α} (h : ContractAudit.AsksFor P m Q) : AsksFor P (m : Resolve α) Q :=
  fun r => h.bind (f := fun a => Pure.pure (a, r)) fun _ ha => .pure ha

theorem tell (e : Event) : AsksFor P (Work.tell e : Resolve Unit) fun _ => True :=
  lift (.tell e)

theorem foldlM {f : α → β → Resolve α} {bs : List β}
    (hf : ∀ a, ∀ b ∈ bs, Q a → AsksFor P (f a b) Q) {a : α} (ha : Q a) :
    AsksFor P (bs.foldlM f a) Q := by
  induction bs generalizing a with
  | nil => exact pure ha
  | cons b bs ih =>
    rw [List.foldlM_cons]
    refine (hf a b List.mem_cons_self ha).bind fun a' ha' => ?_
    exact ih (fun a c hc => hf a c (List.mem_cons_of_mem _ hc)) ha'

theorem mapM {f : α → Resolve β} (hf : ∀ a, AsksFor P (f a) fun _ => True) (as : List α) :
    AsksFor P (as.mapM f) fun _ => True := by
  induction as with
  | nil => exact pure trivial
  | cons a as ih =>
    rw [List.mapM_cons]
    exact (hf a).bind fun _ _ => ih.bind fun _ _ => pure trivial

end AsksFor

/-- The file of the body, if there is one, has `P`. -/
def Frame.Within (P : Path → Prop) (f : Frame) : Prop := ∀ file ∈ f.method.file, P file

section
variable {i : Index} (c : Config)
  (hi : ∀ owner name m, i.method? owner name = some m → ∀ file ∈ m.file, P file)

theorem scanMethod_asks {f : Frame} (hf : f.Within P) :
    ContractAudit.AsksFor P (scanMethod i c f) fun _ => True := by
  have hbody : ContractAudit.AsksFor P (body? f.method) fun _ => True := by
    unfold body?
    cases hfile : f.method.file with
    | none => exact .pure trivial
    | some file =>
      refine (ContractAudit.AsksFor.parse (hf file hfile)).bind fun found _ => ?_
      cases found <;> exact .pure trivial
  refine hbody.bind fun body _ => ?_
  cases body with
  | none => exact .pure trivial
  | some body => exact (ContractAudit.AsksFor.tellAll _).bind fun _ _ => .pure trivial

theorem summaryOf_asks {f : Frame} (hf : f.Within P) :
    AsksFor P (summaryOf i c f) fun _ => True := by
  refine AsksFor.get.bind fun r _ => ?_
  cases r.summary? f.key with
  | some s => exact .pure trivial
  | none =>
    refine (AsksFor.lift (scanMethod_asks c hf)).bind fun s _ => ?_
    exact (AsksFor.update _).bind fun _ _ => .pure trivial

include hi

theorem frame?_asks (thisClass lookupClass method : String) :
    AsksFor P (frame? i thisClass lookupClass method) fun o => ∀ f ∈ o, f.Within P := by
  unfold frame?
  cases hm : i.method? lookupClass method with
  | some m =>
    refine .pure fun f hf => ?_
    cases hf
    exact hi lookupClass method m hm
  | none => exact (AsksFor.tell _).bind fun _ _ => .pure (by simp)

theorem followSite_asks (deeper : Bool) {g : Collected} (hg : ∀ f ∈ g.next, f.Within P)
    (site : CallSite) :
    AsksFor P (followSite i deeper g site) fun x => ∀ f ∈ x.1.next, f.Within P := by
  refine (frame?_asks hi _ _ _).bind fun o ho => ?_
  cases o with
  | none => exact .pure hg
  | some f =>
    refine AsksFor.get.bind fun r _ => .pure ?_
    -- a body that is taken up is the one that was looked up
    change ∀ f' ∈ (g.target deeper r f).1.next, f'.Within P
    unfold Collected.target
    split
    · exact hg
    · split
      · exact hg
      · split
        · exact List.forall_mem_append.mpr ⟨hg, by simpa using ho f rfl⟩
        · exact hg

theorem followSites_asks (deeper : Bool) {g : Collected} (hg : ∀ f ∈ g.next, f.Within P)
    (sites : List CallSite) :
    AsksFor P (followSites i deeper g sites) fun x => ∀ f ∈ x.1.next, f.Within P := by
  induction sites generalizing g with
  | nil => exact .pure hg
  | cons site sites ih =>
    refine (followSite_asks hi deeper hg site).bind fun x hx => ?_
    exact (ih hx).bind fun y hy => .pure hy

theorem collectNode_asks (deeper : Bool) {g : Collected} (hg : ∀ f ∈ g.next, f.Within P)
    {f : Frame} (hf : f.Within P) :
    AsksFor P (collectNode i c deeper g f) fun g => ∀ f ∈ g.next, f.Within P := by
  refine (summaryOf_asks c hf).bind fun s _ => ?_
  exact (followSites_asks hi deeper hg s.calls).bind fun x hx => .pure hx

theorem collectLevels_asks (levels : Nat) {level : List Frame} (hl : ∀ f ∈ level, f.Within P)
    {g : Collected} (hg : ∀ f ∈ g.next, f.Within P) :
    AsksFor P (collectLevels i c levels level g) fun _ => True := by
  induction levels generalizing level g with
  | zero => exact .pure trivial
  | succ levels ih =>
    rw [collectLevels]
    split
    · exact .pure trivial
    · have hstep : ∀ g : Collected, ∀ f ∈ level, (∀ f ∈ g.next, f.Within P) → _ :=
        fun g f hf hg => collectNode_asks c hi (decide (0 < levels)) hg (hl f hf)
      exact (AsksFor.foldlM hstep (by simp)).bind fun g hg => ih hg hg

theorem methodThrows_asks (owner method : String) :
    AsksFor P (methodThrows i c owner method) fun _ => True := by
  refine (frame?_asks hi _ _ _).bind fun o ho => ?_
  cases o with
  | none => exact .pure trivial
  | some root =>
    refine AsksFor.get.bind fun r _ => ?_
    split
    · exact .pure trivial
    · split
      · exact .pure trivial
      · have hlevel : ∀ f ∈ [root], f.Within P := by simpa using ho root rfl
        have hstart : ∀ f ∈ (Collected.start root).next, f.Within P := by simp [Collected.start]
        refine (collectLevels_asks c hi c.maxCallDepth hlevel hstart).bind fun g _ => ?_
        refine (AsksFor.tell _).bind fun _ _ => ?_
        split
        · exact (AsksFor.tell _).bind fun _ _ => .pure trivial
        · exact (AsksFor.update _).bind fun _ _ => .pure trivial

theorem compareClass_asks (name : String) :
    ContractAudit.AsksFor P (Contract.compareClass i c name) fun _ => True := by
  unfold Contract.compareClass
  cases Contract.load i name with
  | error e => exact .pure trivial
  | ok loaded =>
    obtain ⟨subject, contracts⟩ := loaded
    have hcontract (contract : ClassInfo) :
        AsksFor P (Contract.compareContract i c subject contract) fun _ => True := by
      refine (AsksFor.mapM (fun x => ?_) _).bind fun _ _ => .pure trivial
      refine (AsksFor.tell _).bind fun _ _ => ?_
      exact (methodThrows_asks c hi subject.name x.1.name).bind fun _ _ => .pure trivial
    exact (AsksFor.mapM hcontract contracts .new).bind fun _ _ => .pure trivial

end

end Throws

theorem Audit.run_asks {P : Path → Prop} {i : Index} (c : Config)
    (hi : ∀ owner name m, i.method? owner name = some m → ∀ file ∈ m.file, P file) :
    AsksFor P (Audit.run i c Checker.all) fun _ => True := by
  refine (AsksFor.foldlM (Q := fun _ => True) (fun r subject _ _ => ?_) trivial).bind fun r _ =>
    (AsksFor.tell _).bind fun _ _ => .pure trivial
  refine AsksFor.bind (Q := fun _ => True) ?_ fun x _ => .pure trivial
  refine (Throws.compareClass_asks c hi subject.name).bind fun found _ => ?_
  cases found with
  | error e => exact (AsksFor.tell _).bind fun _ _ => .pure trivial
  | ok found =>
    refine (AsksFor.tell _).bind fun _ _ => ?_
    exact (AsksFor.pure (Q := fun _ => True) trivial).bind fun _ _ => .pure trivial

namespace Index

/- What a file declares is put in without a request. -/
theorem addBlocks_asks (file : Path) (bs : List NamespaceBlock) (i : Index) :
    AsksFor (fun _ => False) (bs.foldlM (addBlock file) i) fun _ => True := by
  refine AsksFor.foldlM (fun i b _ _ => ?_) trivial
  refine (AsksFor.tellAll _).bind fun _ _ => AsksFor.foldlM (fun i c _ _ => ?_) trivial
  exact (AsksFor.tellAll _).bind fun _ _ => .pure trivial

theorem addFile_asks (i : Index) (p : Path) (w : Workspace) :
    ∃ rs, Asks (addFile i p) w rs ∧ rs.map (·.path) = [p] := by
  -- nothing is asked for after the file itself
  refine ⟨_, (Asks.parse p w).bind (?_ : Asks _ _ []), rfl⟩
  cases ((Workspace.parse p).run w).1 with
  | none => exact .pure _ _
  | some f =>
    obtain ⟨rs, hrs, hnone, -⟩ :=
      addBlocks_asks f.path f.program.blocks i ((Workspace.parse p).run w).2
    rwa [List.eq_nil_iff_forall_not_mem.mpr hnone] at hrs

theorem addFiles_asks (ps : List Path) (i : Index) (w : Workspace) :
    ∃ rs, Asks (ps.foldlM addFile i) w rs ∧ rs.map (·.path) = ps := by
  induction ps generalizing i w with
  | nil => exact ⟨[], .pure i w, rfl⟩
  | cons p ps ih =>
    obtain ⟨rs, hrs, hpath⟩ := addFile_asks i p w
    obtain ⟨rs', hrs', hpaths⟩ := ih ((addFile i p).run w).1 ((addFile i p).run w).2
    refine ⟨rs ++ rs', hrs.bind hrs', ?_⟩
    rw [List.map_append, hpath, hpaths]
    rfl

theorem build_asks (ps : List Path) (w : Workspace) :
    ∃ rs, Asks (build ps) w rs ∧ rs.map (·.path) = ps := by
  rw [build_eq_assemble]
  obtain ⟨rs, hrs, hpaths⟩ := addFiles_asks ps builtin w
  refine ⟨rs ++ ([] ++ ([] ++ [])), hrs.bind (.bind ?_ (.bind ?_ (.pure _ _))), by simpa⟩
  · exact Asks.tell (_ ++ ·) _
  · exact Asks.tell (_ :: ·) _

end Index

theorem mem_insertList {i : Index} {cs : List ClassInfo} {d : ClassInfo}
    (h : d ∈ (i.insertList cs).classes) : d ∈ i.classes ∨ d ∈ cs := by
  induction cs generalizing i with
  | nil => exact .inl h
  | cons c cs ih =>
    rcases ih (i := i.insert c) h with h | h
    · unfold Index.insert at h
      split at h
      · exact .inl h
      · rcases List.mem_append.mp h with h | h
        · exact .inl h
        · exact .inr (List.mem_singleton.mp h ▸ List.mem_cons_self)
    · exact .inr (List.mem_cons_of_mem _ h)

theorem builtin_file : ∀ c ∈ Index.builtin.classes, c.file = none := by
  decide +kernel

theorem spelling_same (ps : List Path) (p : Path) : (spelling ps p).same p = true := by
  unfold spelling
  cases hfound : ps.find? (·.same p) with
  | none => exact Path.same_iff.mpr rfl
  | some q => simpa using List.find?_some hfound

theorem build_file (files : List (Path × String)) (ps : List Path) {owner name : String}
    {m : MethodInfo} {file : Path}
    (hm : ((Index.build ps).run (inMemory files)).1.method? owner name = some m)
    (hfile : m.file = some file) : ∃ p ∈ ps, p.same file = true := by
  obtain ⟨c, hc, hown⟩ := Index.mem_of_method? hm
  obtain ⟨t, ht, -, htfile⟩ :=
    (Index.build_built ps (inMemory files)).source c hc m (List.mem_of_find?_eq_some hown)
  rw [build_classes] at ht
  obtain ⟨d, hd, rfl⟩ := List.mem_map.mp ht
  have hdfile : d.file = some file := htfile.trans hfile
  rcases mem_insertList hd with hd | hd
  · rw [builtin_file d hd] at hdfile
    cases hdfile
  · obtain ⟨p, hp, hd⟩ := List.mem_flatMap.mp hd
    unfold typesAt at hd
    split at hd
    · cases hd
    · obtain ⟨b, -, hd⟩ := List.mem_flatMap.mp hd
      obtain ⟨t, -, rfl⟩ := List.mem_map.mp hd
      cases hdfile
      exact ⟨p, hp, Path.same_iff.mpr (Path.same_iff.mp (spelling_same ps p)).symm⟩

/-- A run makes the table of a list of files and audits it. However its requests are told apart,
the loader reads the files of the list, each once and under its first spelling, a further request
for a file has the answer of the first, and the audit makes the loader read nothing. -/
theorem audit_reads_each_file_once (files : List (Path × String)) (ps : List Path) (c : Config) :
    let w := inMemory files
    let built := (Index.build ps).run w
    let audit := Audit.run built.1 c Checker.all
    let run := Audit.files ps c Checker.all
    (run.run w).2.reads = (distinct Path.same ps).length ∧
    (∃ rs, Asks run w rs) ∧ (∃ rs, Asks audit built.2 rs) ∧
    (∀ rs, Asks run w rs → (readings rs).map (·.path) = distinct Path.same ps ∧
      ∀ r ∈ rs, ∀ r' ∈ rs, r.path.same r'.path = true → r'.answer = r.answer) ∧
    ∀ rs, Asks audit built.2 rs → readings rs = [] := by
  intro w built audit run
  have hempty : (w.entries.map (·.1)).Pairwise fun p q => p.same q = false := List.Pairwise.nil
  obtain ⟨rs₁, hbuild, hpaths⟩ := Index.build_asks ps w
  obtain ⟨rs₂, haudit, hwithin, -⟩ := Audit.run_asks (P := fun q => ∃ p ∈ ps, p.same q = true) c
    (fun _ _ _ hm _ hfile => build_file files ps hm hfile) built.2
  have hrun : Asks run w (rs₁ ++ (rs₂ ++ [])) := hbuild.bind (haudit.bind (.pure _ _))
  have hbuilt : built.2.entries.map (·.1) = distinct Path.same ps :=
    (hbuild.keys hempty).trans (congrArg (distinct Path.same) hpaths)
  have hdone : (run.run w).2.entries.map (·.1) = distinct Path.same ps := by
    have hcovered : ∀ q ∈ rs₂.map (·.path), ∃ p ∈ ps, p.same q = true := by
      simpa using hwithin
    calc (run.run w).2.entries.map (·.1)
        = distinct Path.same ((rs₁ ++ (rs₂ ++ [])).map Request.path) := hrun.keys hempty
      _ = distinct Path.same (ps ++ (rs₂.map (·.path) ++ [])) := by
        rw [List.map_append, List.map_append, hpaths, List.map_nil]
      _ = distinct Path.same (ps ++ []) :=
        distinct_append_covered Path.same Path.same_trans hcovered []
      _ = distinct Path.same ps := by rw [List.append_nil]
  have hreadings {rs : List Request} (h : Asks run w rs) :
      (readings rs).map (·.path) = distinct Path.same ps := by
    rw [← hdone, h.entries, List.map_append, List.map_map]
    rfl
  refine ⟨?_, ⟨_, hrun⟩, ⟨_, haudit⟩, fun rs h => ⟨hreadings h, ?_⟩, fun rs h => ?_⟩
  · rw [hrun.reads, ← hreadings hrun, List.length_map]
    exact Nat.zero_add _
  · intro r hr r' hr' hsame
    have hfirst : (run.run w).2.cached? r.path = some r.answer := h.answered r hr
    have hother : (run.run w).2.cached? r'.path = some r'.answer := h.answered r' hr'
    rw [Workspace.cached?_congr hsame, hother] at hfirst
    exact Option.some.inj hfirst
  · -- the audit leaves as many entries as the table
    have hlast : (audit.run built.2).2.entries.map (·.1) = distinct Path.same ps := hdone
    rw [← hbuilt, h.entries, List.map_append] at hlast
    simpa using hlast

namespace Sample

/-- One file comes a second time, spelled otherwise; one does not parse, and one is missing. -/
def repeated : List Path :=
  [⟨"src/a.php"⟩, ⟨"none.php"⟩, ⟨"src//a.php"⟩, ⟨"src/broken.php"⟩]

end Sample

theorem audit_reads_each_file_once_sample :
    ((Audit.files Sample.repeated {} Checker.all).run (inMemory Sample.withBroken)).2.reads = 3 ∧
    (∃ rs, Asks (Audit.files Sample.repeated {} Checker.all) (inMemory Sample.withBroken) rs ∧
      (readings rs).map (·.path) = [⟨"src/a.php"⟩, ⟨"none.php"⟩, ⟨"src/broken.php"⟩] ∧
      ∃ r ∈ rs, r.path = ⟨"src/a.php"⟩ ∧
        ∀ r' ∈ rs, r.path.same r'.path = true → r'.answer = r.answer) ∧
    ∃ rs, Asks
      (Audit.run ((Index.build Sample.repeated).run (inMemory Sample.withBroken)).1 {} Checker.all)
      ((Index.build Sample.repeated).run (inMemory Sample.withBroken)).2 rs ∧ readings rs = [] := by
  obtain ⟨hreads, ⟨rs, hrun⟩, ⟨rs', haudit⟩, hall, hnone⟩ :=
    audit_reads_each_file_once Sample.withBroken Sample.repeated {}
  have hdistinct : distinct Path.same Sample.repeated =
      [⟨"src/a.php"⟩, ⟨"none.php"⟩, ⟨"src/broken.php"⟩] := by decide +kernel
  obtain ⟨hreadings, hanswers⟩ := hall rs hrun
  rw [hdistinct] at hreads hreadings
  obtain ⟨r, hr, hpath⟩ : ∃ r ∈ readings rs, r.path = ⟨"src/a.php"⟩ := by
    rw [← List.mem_map, hreadings]
    exact List.mem_cons_self
  have hmem : r ∈ rs := (List.mem_filter.mp hr).1
  exact ⟨hreads, ⟨rs, hrun, hreadings, r, hmem, hpath, hanswers r hmem⟩, rs', haudit,
    hnone rs' haudit⟩

end ContractAudit
