import ContractAudit.Contract.Compare
import ContractAudit.Proofs.Coverage
import ContractAudit.Proofs.FullNames
import ContractAudit.Proofs.Likeness
import ContractAudit.Proofs.SameDeclaration
import ContractAudit.Proofs.Subtrees
import ContractAudit.Proofs.TraitExpansion

/-! The names in a docblock and those in a body. Main statement: for sources held in memory, a name
after `@throws` adds to the declared exceptions of a method what a throw of a new object with that
name adds to the raised ones, whichever method of the same type the throw stands in. -/
namespace ContractAudit

open Source

namespace Text
variable {a b : String}

theorem lower_append (a b : String) : lower (a ++ b) = lower a ++ lower b := by
  simp [lower, String.ofList_append]

theorem lower_eq_iff : lower a = lower b ↔ a.toList.map Char.toLower = b.toList.map Char.toLower :=
  String.ofList_inj

theorem splitOnce_lower (s : String) :
    splitOnce '\\' (lower s) = (splitOnce '\\' s).map fun x => (lower x.1, lower x.2) := by
  have hsame : (fun c : Char => c != '\\') ∘ Char.toLower = fun c => c != '\\' := by
    funext c
    exact congrArg (!·) (toLower_beq_backslash c)
  simp only [splitOnce, lower, String.toList_ofList, List.span_eq_takeWhile_dropWhile,
    List.takeWhile_map, List.dropWhile_map, hsame]
  cases List.dropWhile (fun c => c != '\\') s.toList with
  | nil => rfl
  | cons c cs => simp

/- Only a backslash is a backslash in small letters. -/
theorem cons_backslash_congr (h : lower a = lower b) {rest : List Char}
    (ha : a.toList = '\\' :: rest) :
    ∃ rest', b.toList = '\\' :: rest' ∧ rest.map Char.toLower = rest'.map Char.toLower := by
  have hmap := lower_eq_iff.mp h
  rw [ha] at hmap
  cases hb : b.toList with
  | nil => simp [hb] at hmap
  | cons c cs =>
    rw [hb, List.map_cons, List.map_cons, List.cons.injEq] at hmap
    have hc : c = '\\' := by
      have hbeq := toLower_beq_backslash c
      rw [← hmap.1] at hbeq
      simpa using hbeq.symm
    exact ⟨cs, by rw [hc], hmap.2⟩

end Text

namespace NameContext
variable (c : NameContext) {a b : String}

theorem lower_join_congr (space : String) (h : Text.lower a = Text.lower b) :
    Text.lower (Naming.join space a) = Text.lower (Naming.join space b) := by
  change Text.lower (space ++ "\\" ++ a) = Text.lower (space ++ "\\" ++ b)
  rw [Text.lower_append, h, ← Text.lower_append]

theorem lower_qualify_congr (h : Text.lower a = Text.lower b) :
    Text.lower (c.qualify a) = Text.lower (c.qualify b) := by
  unfold qualify
  cases c.space with
  | none => exact h
  | some space => exact lower_join_congr space h

theorem imported?_congr (h : Text.lower a = Text.lower b) : c.imported? a = c.imported? b := by
  rw [imported?, imported?, h]

theorem lower_resolveParts_congr {first first' : String} {rest rest' : Option String}
    (h : Text.lower a = Text.lower b) (hfirst : Text.lower first = Text.lower first')
    (hrest : rest.map Text.lower = rest'.map Text.lower) :
    Text.lower (c.resolveParts a first rest) = Text.lower (c.resolveParts b first' rest') := by
  have hword : Text.same first "namespace" = Text.same first' "namespace" := by
    rw [Text.same, Text.same, hfirst]
  cases rest with
  | none =>
    cases rest' with
    | some => cases hrest
    | none =>
      simp only [resolveParts, c.imported?_congr hfirst]
      cases c.imported? first' with
      | none => exact c.lower_qualify_congr h
      | some name => rfl
  | some rest =>
    cases rest' with
    | none => cases hrest
    | some rest' =>
      have hrest := Option.some.inj hrest
      simp only [resolveParts, c.imported?_congr hfirst, hword]
      split
      · exact c.lower_qualify_congr hrest
      · cases c.imported? first' with
        | none => exact c.lower_qualify_congr h
        | some name => exact lower_join_congr name hrest

theorem resolve_absolute {rest : List Char} (h : a.toList = '\\' :: rest) :
    c.resolve a = String.ofList rest := by
  simp only [resolve, h]

theorem resolve_relative (h : ∀ rest, a.toList ≠ '\\' :: rest) : c.resolve a =
    if Naming.isReserved a then Text.lower a
    else c.resolveParts a (((Text.splitOnce '\\' a).map (·.1)).getD a)
      ((Text.splitOnce '\\' a).map (·.2)) := by
  unfold resolve
  split
  · next rest hrest => exact absurd hrest (h rest)
  · cases Text.splitOnce '\\' a <;> rfl

theorem lower_resolve_congr (h : Text.lower a = Text.lower b) :
    Text.lower (c.resolve a) = Text.lower (c.resolve b) := by
  by_cases habs : ∃ rest, a.toList = '\\' :: rest
  · obtain ⟨rest, ha⟩ := habs
    obtain ⟨rest', hb, hrest⟩ := Text.cons_backslash_congr h ha
    rw [c.resolve_absolute ha, c.resolve_absolute hb]
    exact Text.lower_eq_iff.mpr (by simpa using hrest)
  · have ha : ∀ rest, a.toList ≠ '\\' :: rest := not_exists.mp habs
    have hb : ∀ rest, b.toList ≠ '\\' :: rest := by
      intro rest hb
      obtain ⟨rest', ha', _⟩ := Text.cons_backslash_congr h.symm hb
      exact ha rest' ha'
    have hword : Naming.isReserved a = Naming.isReserved b := by
      simp only [Naming.isReserved, Text.same, h]
    have hsplit : (Text.splitOnce '\\' a).map (fun x => (Text.lower x.1, Text.lower x.2)) =
        (Text.splitOnce '\\' b).map fun x => (Text.lower x.1, Text.lower x.2) := by
      rw [← Text.splitOnce_lower, ← Text.splitOnce_lower, h]
    have hfirst := congrArg (Option.map Prod.fst) hsplit
    have hrest := congrArg (Option.map Prod.snd) hsplit
    simp only [Option.map_map, Function.comp_def] at hfirst hrest
    rw [c.resolve_relative ha, c.resolve_relative hb, hword]
    split
    · rw [h]
    · apply c.lower_resolveParts_congr h
      · rw [← Option.getD_map Text.lower, ← Option.getD_map Text.lower, Option.map_map,
          Option.map_map, h]
        exact congrArg (Option.getD · _) hfirst
      · rw [Option.map_map, Option.map_map]
        exact hrest

end NameContext

namespace Index
variable {i : Index} {name : String} {x : ClassInfo}

theorem Built.get?_name (hi : i.Built) {c : ClassInfo} (hc : c ∈ i.classes) :
    i.get? c.name = some c := by
  have hfound : (i.get? c.name).isSome = true :=
    List.find?_isSome.mpr ⟨c, hc, by simp [c.key_eq]⟩
  obtain ⟨d, hd⟩ := Option.isSome_iff_exists.mp hfound
  rw [hd, hi.unique (List.mem_of_find?_eq_some hd) hc (classKey_of_get? hd)]

/- A method whose body stands in a type has the file of the type. -/
theorem Built.file_eq (hi : i.Built) {c d : ClassInfo} {m : MethodInfo} (hc : c ∈ i.classes)
    (hm : m ∈ c.methods) (hd : d ∈ i.classes) (howner : m.sourceOwner = d.name) :
    m.file = d.file := by
  obtain ⟨t, ht, hname, hfile⟩ := hi.source c hc m hm
  rw [← hfile, hi.unique ht hd (by rw [hname, howner])]

theorem mem_of_get? (h : i.get? name = some x) : x ∈ i.classes := List.mem_of_find?_eq_some h

theorem declaredName_of_get? (h : i.get? name = some x) : i.declaredName name = x.name := by
  rw [declaredName, h]
  rfl

end Index

namespace Contract

open Throws
variable {i : Index} {d x : ClassInfo} {m m' : MethodInfo} {name o : String}

/-- The names that a docblock has after its tags, in order. -/
def tagged : Option String → List String
  | none => []
  | some doc => (Text.lines doc.toList).flatMap lineNames

/-- The declared exception that a name after a tag means. -/
def taggedName (i : Index) (context : NameContext) (name : String) : String :=
  i.declaredName (meant context i name)

theorem taggedName_of_get? {context : NameContext} (h : i.get? (context.resolve name) = some x) :
    taggedName i context name = x.name := by
  have hmeant : meant context i name = context.resolve name := by
    simp [meant, Index.contains, h]
  rw [taggedName, hmeant, Index.declaredName_of_get? h]

theorem mem_declared {context : NameContext} {doc : Option String} : o ∈ declared context i doc ↔
    ∃ n ∈ distinct Text.same (tagged doc), meant context i n = o := by
  cases doc with
  | none => exact iff_of_false (NameSet.not_mem_empty o) (by simp [tagged, distinct])
  | some doc => simp [declared, written, tagged]

theorem mem_declaredThrows (hi : i.Built) (hd : d ∈ i.classes) (hm : m.sourceOwner = d.name) :
    o ∈ declaredThrows i m ↔
      ∃ n ∈ distinct Text.same (tagged m.doc), taggedName i d.context n = o := by
  simp [declaredThrows, hm, hi.get?_name hd, ← NameSet.mem_def, mem_declared, taggedName]

/- A further name in a list makes no difference to names that are not the same. -/
theorem mem_distinct_insert {before after : List String} {n : String}
    (hn : Text.same name n = false) : n ∈ distinct Text.same (before ++ name :: after) ↔
      n ∈ distinct Text.same (before ++ after) := by
  have hne : n ≠ name := by
    rintro rfl
    simp [Text.same] at hn
  simp only [distinct_append, distinct, List.mem_append, List.mem_filter, List.mem_cons, hn]
  simp [hne]

/-- One more name after a tag adds the class that it means, as that is declared. -/
theorem declaredThrows_insert (hi : i.Built) (hd : d ∈ i.classes)
    (hx : i.get? (d.context.resolve name) = some x) (hm : m.sourceOwner = d.name)
    (hm' : m'.sourceOwner = d.name) {before after : List String}
    (htags : tagged m.doc = before ++ after) (htags' : tagged m'.doc = before ++ name :: after) :
    declaredThrows i m' = (declaredThrows i m).insert x.name := by
  -- names that differ from it in letter case only mean the same class
  have hsame {n : String} (hn : Text.lower name = Text.lower n) :
      taggedName i d.context n = x.name := by
    apply taggedName_of_get?
    rw [← i.get?_congr (d.context.lower_resolve_congr hn), hx]
  have hadded : ∃ n ∈ distinct Text.same (before ++ name :: after),
      taggedName i d.context n = x.name := by
    have hname : name ∈ before ++ name :: after := by simp
    obtain ⟨n, hn, heq⟩ := exists_mem_distinct Text.same Text.same_refl Text.same_trans hname
    exact ⟨n, hn, hsame (beq_iff_eq.mp heq).symm⟩
  apply NameSet.ext
  intro o
  rw [NameSet.mem_insert, mem_declaredThrows hi hd hm, mem_declaredThrows hi hd hm', htags, htags']
  constructor
  · rintro ⟨n, hn, rfl⟩
    by_cases heq : Text.same name n = true
    · exact Or.inl (hsame (beq_iff_eq.mp heq))
    · exact Or.inr ⟨n, (mem_distinct_insert (by simpa using heq)).mp hn, rfl⟩
  · rintro (rfl | ⟨n, hn, rfl⟩)
    · exact hadded
    · by_cases heq : Text.same name n = true
      · rw [hsame (beq_iff_eq.mp heq)]
        exact hadded
      · exact ⟨n, (mem_distinct_insert (by simpa using heq)).mpr hn, rfl⟩

end Contract

/-- A type of the table with a file, as it stands there: its file has a tree that is kept, in which
its name finds the declaration, and the names of that are resolved as the type knows them. -/
structure TypeSite.Backs (s : TypeSite) (w : Workspace) (d : ClassInfo) : Prop where
  file : d.file = some s.file.path
  kept : w.cached? s.file.path = some (some s.file)
  found : s.file.program.type? d.name = some s.type
  written : ∃ t : TypeDecl, t.AsWritten ∧ s.type = t.resolve d.context

theorem Program.ofSource_asWritten {source : String} {p : Program} (h : ofSource source = .ok p) :
    p.AsWritten := by
  unfold Program.ofSource at h
  split at h
  · exact Program.ofTokens_asWritten h
  · cases h

theorem exists_site_of_mem (files : List (Path × String)) (paths : List Path) {d : ClassInfo}
    (hd : d ∈ ((Index.build paths).run (inMemory files)).1.classes) (hfile : d.file ≠ none) :
    ∃ s : TypeSite, s.Backs ((Index.build paths).run (inMemory files)).2 d := by
  rw [Index.build_eq_applyTraits] at hd
  obtain ⟨c, hc, rfl⟩ := List.mem_map.mp hd
  obtain ⟨s, hfirst, rfl⟩ := find?_site_of_firstDeclared builtin_file hc hfile
  obtain ⟨⟨e, he, hef⟩, hinfile⟩ := find?_sitesFound hfirst
  obtain ⟨hentry, q, htree⟩ := (memory_holds files).parseAll_kept paths e he s.file hef
  obtain ⟨source, parsed, hparsed, hprogram⟩ := tree?_inMemory htree
  refine ⟨s, rfl, ?_, ?_, ?_⟩
  · rw [Workspace.cached?, Index.build_entries]
    exact hentry
  · rw [hprogram, Program.type?_resolve hparsed, ← hprogram, ← ParsedFile.map_type_sites,
      List.find?_map]
    exact congrArg (Option.map (·.type)) hinfile
  · obtain ⟨b, hb, hs⟩ := List.mem_flatMap.mp (List.mem_of_find?_eq_some hinfile)
    obtain ⟨t, ht, heq⟩ := List.mem_map.mp hs
    rw [hprogram] at hb
    rw [← heq]
    exact Program.exists_type_of_resolve (Program.ofSource_asWritten hparsed) hb ht

namespace TypeSite.Backs
variable {s : TypeSite} {w : Workspace} {d : ClassInfo} {m : MethodInfo} {b : Block}

theorem exists_method (h : s.Backs w d) (hkey : w.loader.key = id) (hfile : m.file = d.file)
    (howner : m.sourceOwner = d.name) (hb : ((Throws.body? m).run w).1 = some b) :
    ∃ decl ∈ s.type.methods, decl.body = some b := by
  have hparse : (Workspace.parse s.file.path).run w = (some s.file, w) := by
    rw [Workspace.parse_run, hkey, id, h.kept]
  rw [Throws.body?_run, hfile, h.file] at hb
  simp only [hparse, Option.bind_some, Program.method?, howner, h.found] at hb
  obtain ⟨decl, hdecl, hbody⟩ := Option.bind_eq_some_iff.mp hb
  exact ⟨decl, List.mem_of_find?_eq_some hdecl, hbody⟩

/- The classes in a body have the full names that the block of its type gives them. -/
theorem full_eq (h : s.Backs w d) {decl : MethodDecl} (hdecl : decl ∈ s.type.methods)
    (hb : decl.body = some b) {n : Name} (hn : .ofClass n ∈ b.names) :
    n.full = d.context.resolve n.raw := by
  have hmethod : .ofClass n ∈ decl.names := by
    rw [MethodDecl.names, hb]
    exact List.mem_append_right _ hn
  have htype : .ofClass n ∈ s.type.names :=
    List.mem_append_right _ (List.mem_flatMap.mpr ⟨decl, hdecl, hmethod⟩)
  obtain ⟨t, ht, heq⟩ := h.written
  rw [heq, TypeDecl.names_resolve] at htype
  rw [Name.full, (NameUse.resolved_of_mem ht.plain).1 htype]
  rfl

end TypeSite.Backs

theorem full_of_body? (files : List (Path × String)) (paths : List Path) {d : ClassInfo}
    {m : MethodInfo} {b : Block} {n : Name}
    (hd : d ∈ ((Index.build paths).run (inMemory files)).1.classes)
    (hm : ∃ k ∈ ((Index.build paths).run (inMemory files)).1.classes, m ∈ k.methods)
    (howner : m.sourceOwner = d.name)
    (hb : ((Throws.body? m).run ((Index.build paths).run (inMemory files)).2).1 = some b)
    (hn : .ofClass n ∈ b.names) : n.full = d.context.resolve n.raw := by
  obtain ⟨k, hk, hmk⟩ := hm
  have hfile := (Index.build_built paths (inMemory files)).file_eq hk hmk hd howner
  have hsome : d.file ≠ none := by
    intro hnone
    rw [Throws.body?_run, hfile, hnone] at hb
    cases hb
  obtain ⟨s, hs⟩ := exists_site_of_mem files paths hd hsome
  obtain ⟨_, _, hw, _⟩ := build_finds standard_congr (memory_holds files) paths
  obtain ⟨decl, hdecl, hbody⟩ := hs.exists_method hw.key hfile howner hb
  exact hs.full_eq hdecl hbody hn

namespace Throws
variable {i : Index} {c : Config} {f : Frame} {b : Block} {e : Expr} {x : ClassInfo}

theorem canonical_of_get? {name : String} (h : i.get? name = some x) :
    canonical i name = x.name :=
  Index.declaredName_of_get? ((i.get?_dropLeading name).trans h)

theorem stepOf?_of_thrown? {v : Visit} (h : thrown? v = some e) : stepOf? v = some (.raise e) := by
  unfold thrown? at h
  split at h <;> cases h
  · rfl
  · rfl

theorem scanMethod_of_body? {w : Workspace} (h : ((body? f.method).run w).1 = some b) :
    ((scanMethod i c f).run w).1 = (summarize (settingOf i c f) f.method.params b).1 := by
  rw [scanMethod_run]
  cases hrun : (body? f.method).run w with
  | mk body w' =>
    rw [hrun] at h
    cases h
    rfl

/-- A throw of a new object raises its class, as that is declared, unless it is caught. -/
theorem recordThrow_new {s : Setting} {n : Name} (hx : s.index.get? n.full = some x)
    (span : Span) (args : List Arg) (t : Scan) :
    (t.recordThrow s (.new span (.named n) args)).raised =
      if isCaught s.index s.caught x.name then t.raised else t.raised.insert x.name := by
  simp only [Scan.recordThrow, Setting.classOf, Scan.raise, canonical_of_get? hx]
  split <;> rfl

/-- A throw of a new object that is taken raises its class for good, unless a clause around it
catches the class. -/
theorem perform_raises {s : Setting} {span : Span} {n : Name} {args : List Arg}
    (hx : s.index.get? n.full = some x) (hs : s.caught = [])
    (h : .raise (.new span (.named n) args) ∈ stepsOfBlock b) (t : Scan) :
    x.name ∈ (perform s (deeds b) t).raised ∨ s.honorCatch = true ∧
      ∃ y ∈ deeds b, y.what = .raise (.new span (.named n) args) ∧
        isCaught s.index (guardsOf y.around) x.name = true := by
  obtain ⟨y, hy, hstep⟩ := List.mem_map.mp h
  have hx' : (s.within (guardsOf y.around)).index.get? n.full = some x := by
    rw [s.index_within, hx]
  by_cases hcaught : isCaught s.index (s.within (guardsOf y.around)).caught x.name = true
  · right
    by_cases hc : s.honorCatch = true
    · rw [Setting.within, if_pos hc, hs, List.nil_append] at hcaught
      exact ⟨hc, y, hy, hstep, hcaught⟩
    · rw [Setting.within, if_neg hc, hs] at hcaught
      cases hcaught
  · left
    obtain ⟨before, after, hsplit⟩ := List.append_of_mem hy
    rw [hsplit, perform_append, perform_cons, hstep]
    apply (keeps_perform s _ after).raised
    rw [Step.run, recordThrow_new hx', s.index_within, if_neg hcaught]
    simp

end Throws

namespace Contract

open Throws

/-- One more tag with the name adds the exception to those that the docblock of a method declares,
where the body of the method stands in the type. -/
def TagAdds (i : Index) (d : ClassInfo) (name exception : String) : Prop :=
  ∀ m m' before after, m.sourceOwner = d.name → m'.sourceOwner = d.name →
    tagged m.doc = before ++ after → tagged m'.doc = before ++ name :: after →
    declaredThrows i m' = (declaredThrows i m).insert exception

/-- A throw of a new object with the name adds the exception to those that are raised, unless it is
caught: whatever was raised before, and so for the summary of a method whose body stands in the type
and has the throw, if that is not passed over. -/
def ThrowAdds (i : Index) (w : Workspace) (d : ClassInfo) (name exception : String) : Prop :=
  ∀ c f b, (∃ k ∈ i.classes, f.method ∈ k.methods) → f.method.sourceOwner = d.name →
    ((body? f.method).run w).1 = some b → ∀ v ∈ b.inner, ∀ span n args,
    thrown? v = some (.new span (.named n) args) → n.raw = name →
    (∀ s t, s.index = i → (Scan.recordThrow s (.new span (.named n) args) t).raised =
      if isCaught i s.caught exception then t.raised else t.raised.insert exception) ∧
    (¬ PassedOver b.inner (stepsOfBlock b) v →
      exception ∈ ((scanMethod i c f).run w).1.raised ∨
      c.honorCatch = true ∧ ∃ x ∈ deeds b, x.what = .raise (.new span (.named n) args) ∧
        isCaught i (guardsOf x.around) exception = true)

/-- Take a type of a table of files that are held in memory, and a name that means a declared class
there. After a tag in a docblock and in a throw of a new object it adds the same: the name of that
class as it is declared. -/
theorem tag_and_throw_add_alike (files : List (Path × String)) (paths : List Path) :
    let run := (Index.build paths).run (inMemory files)
    ∀ d ∈ run.1.classes, ∀ name x, run.1.get? (d.context.resolve name) = some x →
      TagAdds run.1 d name x.name ∧ ThrowAdds run.1 run.2 d name x.name := by
  intro run d hd name x hx
  have hi : run.1.Built := Index.build_built paths (inMemory files)
  constructor
  · intro m m' before after hm hm' htags htags'
    exact declaredThrows_insert hi hd hx hm hm' htags htags'
  · intro c f b hmethod howner hb v hv span n args hthrown hraw
    have hfull : run.1.get? n.full = some x := by
      rw [full_of_body? files paths hd hmethod howner hb (b.name_of_thrown? hv hthrown), hraw, hx]
    constructor
    · intro s t hs
      rw [recordThrow_new (by rw [hs, hfull]), hs]
    · intro hheard
      have htakes : .raise (.new span (.named n) args) ∈ stepsOfBlock b :=
        (heard_block b v hv _ (stepOf?_of_thrown? hthrown)).resolve_right hheard
      rw [scanMethod_of_body? hb, summarize_eq]
      exact perform_raises hfull rfl htakes _

namespace Sample

/-- A trait imports an exception under another name and spells that in small letters; a class uses
the trait. -/
def aliased : List (Path × String) :=
  [(⟨"a.php"⟩, "<?php namespace A; use Exception as E; class C {use T;} trait T {
    /** @throws e */ function f() {throw new e;}}")]

def aliasedRun : Index × Workspace := (Index.build [⟨"a.php"⟩]).run (inMemory aliased)

/-- The method of the trait, as a class has it. -/
def throwing (owner : String) : MethodInfo :=
  ⟨"f", owner, "A\\T", .publicly, false, false, some "/** @throws e */", none, [], some (2, 2),
    some ⟨"a.php"⟩⟩

def aliasedType (name : String) (kind : TypeKind) (traits : List String)
    (methods : List MethodInfo) : ClassInfo :=
  { Builtin.concrete name none [] with
    kind, traits, methods, file := some ⟨"a.php"⟩
    context := ⟨some "A", [⟨"e", "Exception"⟩]⟩ }

def user : ClassInfo := aliasedType "A\\C" .classType ["A\\T"] []

def used : ClassInfo := aliasedType "A\\T" .traitType [] [throwing "A\\T"]

/-- The name of a class in a statement that throws a new object. -/
def thrownName? : Visit → Option String
  | .stmt (.throwing _ (.new _ (.named n) _)) => some n.raw
  | _ => none

def isLoop : Visit → Bool
  | .stmt (.foreach ..) => true
  | _ => false

/-- The table before traits are copied. -/
def aliasedTable : Index :=
  Index.declaredIn ((Workspace.parseAll [⟨"a.php"⟩]).run (inMemory aliased)).1

theorem aliased_read :
    typesFound ((Workspace.parseAll [⟨"a.php"⟩]).run (inMemory aliased)).1 = [user, used] ∧
    ((Builtin.classes ++ [user, used]).find? (sameClass ·.name "A\\C") = some user ∧
      (Builtin.classes ++ [user, used]).find? (sameClass ·.name "A\\T") = some used ∧
      ((Builtin.classes ++ [user, used]).find? (sameClass ·.name "Exception")).map (·.name) =
        some "Exception") ∧
    tagged (throwing "A\\C").doc = ["e"] ∧
    (((body? (throwing "A\\C")).run aliasedRun.2).1.map fun b =>
      (b.inner.filterMap thrownName?, b.inner.any isLoop)) = some (["e"], false) := by
  decide +kernel

theorem aliased_get? : aliasedTable.get? "A\\C" = some user ∧
    aliasedTable.get? "A\\T" = some used ∧
    (aliasedTable.get? "Exception").map (·.name) = some "Exception" := by
  have hget (name : String) : aliasedTable.get? name =
      (Builtin.classes ++ [user, used]).find? (sameClass ·.name name) := by
    rw [← aliased_read.1]
    exact Index.get?_firstDeclared _ _ _
  simp only [hget]
  exact aliased_read.2.1

theorem aliased_built : aliasedRun.1 = aliasedTable.applyTraits :=
  Index.build_eq_applyTraits [⟨"a.php"⟩] (inMemory aliased)

theorem aliased_adopted : aliasedTable.adopted user = [throwing "A\\C"] := by
  rw [Index.adopted, Index.traitsOf_one rfl aliased_get?.2.1 rfl rfl]
  rfl

theorem aliased_classes :
    (∃ d ∈ aliasedRun.1.classes, d.name = "A\\T" ∧ d.context = used.context) ∧
    (∃ k ∈ aliasedRun.1.classes, throwing "A\\C" ∈ k.methods) ∧
    ∃ x, aliasedRun.1.get? "Exception" = some x ∧ x.name = "Exception" := by
  obtain ⟨huser, hused, hexception⟩ := aliased_get?
  obtain ⟨x, hx, hname⟩ := Option.map_eq_some_iff.mp hexception
  rw [aliased_built]
  refine ⟨⟨_, List.mem_map_of_mem (Index.mem_of_get? hused), rfl, rfl⟩,
    ⟨_, List.mem_map_of_mem (Index.mem_of_get? huser), ?_⟩, ?_⟩
  · rw [aliased_adopted]
    exact List.mem_cons_self
  · rw [Index.get?_applyTraits, hx]
    exact ⟨_, rfl, hname⟩

theorem aliased_thrown : ∃ b, ((body? (throwing "A\\C")).run aliasedRun.2).1 = some b ∧
    ∃ v ∈ b.inner, ∃ span n args, thrown? v = some (.new span (.named n) args) ∧ n.raw = "e" ∧
      ¬ PassedOver b.inner (stepsOfBlock b) v := by
  obtain ⟨b, hb, hfound⟩ := Option.map_eq_some_iff.mp aliased_read.2.2.2
  obtain ⟨hthrown, hloops⟩ := Prod.mk.inj hfound
  have hname : "e" ∈ b.inner.filterMap thrownName? := by
    rw [hthrown]
    exact List.mem_singleton_self _
  obtain ⟨v, hv, hvname⟩ := List.mem_filterMap.mp hname
  unfold thrownName? at hvname
  split at hvname
  · refine ⟨b, hb, _, hv, _, _, _, rfl, Option.some.inj hvname, ?_⟩
    rintro (⟨_, hexpr, _⟩ | ⟨span, e, k, t, body, hloop, _⟩)
    · cases hexpr
    · exact absurd rfl (List.any_eq_false.mp hloops _ hloop)
  · cases hvname

end Sample

/- The class of an import, spelled in small letters, for a method that a class took over. -/
theorem tag_and_throw_add_alike_aliased :
    (∃ k ∈ Sample.aliasedRun.1.classes, Sample.throwing "A\\C" ∈ k.methods) ∧
    declaredThrows Sample.aliasedRun.1 (Sample.throwing "A\\C") = NameSet.ofList ["Exception"] ∧
    "Exception" ∈ ((scanMethod Sample.aliasedRun.1 {} ⟨"A\\C", Sample.throwing "A\\C"⟩).run
      Sample.aliasedRun.2).1.raised := by
  obtain ⟨⟨d, hd, hname, hcontext⟩, hmethod, x, hx, hxname⟩ := Sample.aliased_classes
  obtain ⟨b, hb, v, hv, span, n, args, hthrown, hraw, hheard⟩ := Sample.aliased_thrown
  have hmeans : Sample.aliasedRun.1.get? (d.context.resolve "e") = some x := by
    rw [hcontext]
    exact hx
  obtain ⟨htags, hthrows⟩ := tag_and_throw_add_alike Sample.aliased [⟨"a.php"⟩] d hd "e" x hmeans
  have hdeclared := htags { Sample.throwing "A\\C" with doc := none } (Sample.throwing "A\\C") [] []
    hname.symm hname.symm rfl Sample.aliased_read.2.2.1
  obtain ⟨_, hraised⟩ := hthrows {} ⟨"A\\C", Sample.throwing "A\\C"⟩ b hmethod hname.symm hb v hv
    span n args hthrown hraw
  rw [hxname] at hdeclared hraised
  refine ⟨hmethod, hdeclared, ?_⟩
  rcases hraised hheard with hmem | ⟨hcatch, _⟩
  · exact hmem
  · cases hcatch

end Contract

end ContractAudit
