import ContractAudit.Proofs.CallGraph
import ContractAudit.Proofs.Likeness

/-! What a call key tells. Main statement: frames with one key have one body; they have one summary,
letter case aside, if one class declares their methods, or if the body depends on neither the
declaring class nor its parent. -/
namespace ContractAudit.Throws

/-- Does a reference depend on where the method is declared? -/
def namesDeclarer : ClassRef → Bool
  | .selfRef _ | .parentRef _ => true
  | .named _ | .staticRef _ | .dynamic _ | .anonymous _ => false

/-- Nothing that a body does depends on where its method is declared. -/
def freeOfDeclarer (b : Block) : Bool :=
  (stepsOfBlock b).all fun step => step.ref?.all (!namesDeclarer ·)

def CallSite.lowered (site : CallSite) : CallSite :=
  ⟨Text.lower site.thisClass, Text.lower site.lookupClass, site.method, site.caught⟩

/-- Two summaries are the same, the letter case of class names aside. -/
structure Summary.Same (a b : Summary) : Prop where
  raised : ∀ d, (∃ o ∈ a.raised, Text.lower o = d) ↔ ∃ o ∈ b.raised, Text.lower o = d
  calls : a.calls.map CallSite.lowered = b.calls.map CallSite.lowered

section
variable {i : Index} {c : Config} {f g : Frame} {w : Workspace}

theorem program_method?_congr (p : Program) {a b m n : String} (h : Text.lower a = Text.lower b)
    (h' : Text.lower m = Text.lower n) : p.method? a m = p.method? b n := by
  simp only [Program.method?, Program.type?, TypeDecl.method?, Text.same, lower_dropLeading, h, h']

theorem ownMethod?_congr (k : ClassInfo) {m n : String} (h : Text.lower m = Text.lower n) :
    k.ownMethod? m = k.ownMethod? n := by
  simp only [ClassInfo.ownMethod?, Text.same, h]

/- The type that holds a body is declared once, so one key tells the file. -/
theorem sources_eq (hi : i.Built) {lf nf lg ng : String} (hf : i.method? lf nf = some f.method)
    (hg : i.method? lg ng = some g.method)
    (howner : Text.lower f.method.sourceOwner = Text.lower g.method.sourceOwner) :
    f.method.file = g.method.file := by
  obtain ⟨a, ha, hfa⟩ := Index.mem_of_method? hf
  obtain ⟨b, hb, hgb⟩ := Index.mem_of_method? hg
  obtain ⟨t, ht, htname, htfile⟩ := hi.source a ha _ (List.mem_of_find?_eq_some hfa)
  obtain ⟨u, hu, huname, hufile⟩ := hi.source b hb _ (List.mem_of_find?_eq_some hgb)
  have htu : t = u := by
    apply hi.unique ht hu
    rw [htname, huname, classKey_congr howner]
  rw [← htfile, ← hufile, htu]

theorem body?_eq (hi : i.Built) {lf nf lg ng : String} (hf : i.method? lf nf = some f.method)
    (hg : i.method? lg ng = some g.method) (hkey : f.key = g.key) (w : Workspace) :
    (body? f.method).run w = (body? g.method).run w := by
  obtain ⟨-, howner, hname⟩ := CallKey.mk.inj hkey
  rw [body?_run, body?_run, sources_eq hi hf hg howner]
  simp only [fun p : Program => program_method?_congr p howner hname]

theorem method_eq_of_declaringClass (hi : i.Built) {lf nf lg ng : String}
    (hf : i.method? lf nf = some f.method) (hg : i.method? lg ng = some g.method)
    (hkey : f.key = g.key) (hdecl : f.method.declaringClass = g.method.declaringClass) :
    f.method = g.method := by
  obtain ⟨-, -, hname⟩ := CallKey.mk.inj hkey
  obtain ⟨a, ha, hfa⟩ := Index.mem_of_method? hf
  obtain ⟨b, hb, hgb⟩ := Index.mem_of_method? hg
  have hab : a = b := by
    apply hi.unique ha hb
    rw [← hi.declaring a ha _ (List.mem_of_find?_eq_some hfa),
      ← hi.declaring b hb _ (List.mem_of_find?_eq_some hgb), hdecl]
  have hnf : Text.lower f.method.name = Text.lower nf := by
    simpa [Text.same] using List.find?_some hfa
  have hng : Text.lower g.method.name = Text.lower ng := by
    simpa [Text.same] using List.find?_some hgb
  rw [hab, ownMethod?_congr b (hnf.symm.trans (hname.trans hng)), hgb] at hfa
  exact (Option.some.inj hfa).symm

/-- Where the methods are declared makes no difference to their body: it is one place, or the body
and the types of the parameters do not depend on it. -/
def SameScope (w : Workspace) (f g : Frame) : Prop :=
  f.method.declaringClass = g.method.declaringClass ∨
    f.method.params = g.method.params ∧ ((body? f.method).run w).1.all freeOfDeclarer = true

theorem agree_of_free {β : Type} {δ : String → β} {s s' : Setting} {b : Block}
    (hthis : look i δ s.thisClass = look i δ s'.thisClass) (hb : freeOfDeclarer b = true) :
    ∀ step ∈ stepsOfBlock b, ∀ r, step.ref? = some r → Agree i δ s s' r := by
  intro step hstep r hr
  have hfree := List.all_eq_true.mp hb step hstep
  rw [hr] at hfree
  cases r with
  | selfRef | parentRef => cases hfree
  | staticRef => exact congrArg some hthis
  | named | dynamic | anonymous => rfl

theorem agree_of_same {β : Type} {δ : String → β} {s s' : Setting}
    (hthis : look i δ s.thisClass = look i δ s'.thisClass) (hself : s.selfClass = s'.selfClass)
    (hparent : s.parent = s'.parent) (r : ClassRef) : Agree i δ s s' r := by
  cases r with
  | selfRef => exact congrArg (some ∘ look i δ) hself
  | parentRef => exact congrArg (Option.map (look i δ)) hparent
  | staticRef => exact congrArg some hthis
  | named | dynamic | anonymous => rfl

theorem scanMethod_like {β : Type} {δ : String → β}
    (hδ : ∀ {o o'}, δ o = δ o' → Text.lower o = Text.lower o') (hi : i.Built)
    {lf nf lg ng : String} (hf : i.method? lf nf = some f.method)
    (hg : i.method? lg ng = some g.method) (hkey : f.key = g.key) (hscope : SameScope w f g)
    (hthis : look i δ f.thisClass = look i δ g.thisClass) :
    (∀ d, (∃ o ∈ ((scanMethod i c f).run w).1.raised, δ o = d) ↔
      ∃ o ∈ ((scanMethod i c g).run w).1.raised, δ o = d) ∧
    ((scanMethod i c f).run w).1.calls.map (lookSite i δ) =
      ((scanMethod i c g).run w).1.calls.map (lookSite i δ) := by
  have hnear : Near i δ (settingOf i c f) (settingOf i c g) := ⟨rfl, rfl, rfl, rfl, hthis⟩
  rw [scanMethod_run, scanMethod_run, ← body?_eq hi hf hg hkey]
  cases hbody : (body? f.method).run w with
  | mk body w' =>
    cases body with
    | none => exact ⟨fun _ => Iff.rfl, rfl⟩
    | some b =>
      rcases hscope with hdecl | ⟨hparams, hfree⟩
      · have hm := method_eq_of_declaringClass hi hf hg hkey hdecl
        have hparent : (settingOf i c f).parent = (settingOf i c g).parent := by
          simp only [settingOf, hdecl]
        refine summarize_like hδ hnear (by rw [hm]) fun _ _ r _ => ?_
        exact agree_of_same hnear.this hdecl hparent r
      · refine summarize_like hδ hnear (by rw [hparams]) ?_
        rw [hbody] at hfree
        exact agree_of_free hnear.this hfree

/-- In a table that is built from files, frames with one key have the same body. Where it makes no
difference to the body in which class it stands, they have the same summary. -/
theorem same_key_same_summary {paths : List Source.Path} {w₀ : Workspace}
    (hi : ((Index.build paths).run w₀).1 = i) {lf nf lg ng : String}
    (hf : i.method? lf nf = some f.method) (hg : i.method? lg ng = some g.method)
    (hkey : f.key = g.key) (c : Config) (w : Workspace) :
    (body? f.method).run w = (body? g.method).run w ∧
    (SameScope w f g →
      Summary.Same ((scanMethod i c f).run w).1 ((scanMethod i c g).run w).1 ∧
      (i.contains f.thisClass = true →
        ((scanMethod i c f).run w).1.raised = ((scanMethod i c g).run w).1.raised)) := by
  have hbuilt : i.Built := hi ▸ Index.build_built paths w₀
  obtain ⟨hthis, -, -⟩ := CallKey.mk.inj hkey
  refine ⟨body?_eq hbuilt hf hg hkey w, fun hscope => ⟨?_, ?_⟩⟩
  · have hlook : look i Text.lower f.thisClass = look i Text.lower g.thisClass :=
      Prod.ext hthis (lower_canonical_congr hthis)
    obtain ⟨hraised, hcalls⟩ := scanMethod_like (c := c) id hbuilt hf hg hkey hscope hlook
    -- the small letters are a part of what is looked at
    have hpart : CallSite.lowered =
        (fun x => ⟨x.1.1, x.2.1.1, x.2.2.1, x.2.2.2⟩) ∘ lookSite i Text.lower := rfl
    refine ⟨hraised, ?_⟩
    rw [hpart, ← List.map_map, ← List.map_map, hcalls]
  · intro hin
    have hlook : look i id f.thisClass = look i id g.thisClass :=
      Prod.ext hthis (canonical_eq_of_contains hthis hin)
    obtain ⟨hraised, -⟩ :=
      scanMethod_like (c := c) (congrArg Text.lower) hbuilt hf hg hkey hscope hlook
    apply NameSet.ext
    intro o
    simpa using hraised o

end

/- A trait that a class and its parent both use, so that one key has two methods. -/
namespace Sample

def traitFile : Source.Path := ⟨"t.php"⟩

def named (name : String) : Name := ⟨name, some name, default⟩

/-- A method that raises what `new` makes of a reference. -/
def raiser (name : String) (r : ClassRef) : MethodDecl :=
  ⟨name, [], none, [], none, false,
    some ⟨default, [.throwing default (.new default r [])]⟩, default⟩

def traitBlock : NamespaceBlock :=
  ⟨none, [], [
    ⟨.traitType, "T", "T", [], [], [], [], [raiser "m" (.selfRef default)], none, default⟩,
    ⟨.classType, "A", "A", [], [], [], [named "T"], [raiser "n" (.staticRef default)], none,
      default⟩,
    ⟨.classType, "B", "B", [], [named "A"], [], [named "T"], [], none, default⟩], default⟩

def traitWorkspace : Workspace :=
  ⟨Loader.memory [], [(traitFile, some ⟨traitFile, ⟨[traitBlock], true, default⟩, 1⟩)], 1, []⟩

def traitIndex : Index := Index.applyTraits ⟨traitBlock.classes traitFile, []⟩

/-- The trait's method, as a class has it. -/
def copied (owner : String) : MethodInfo :=
  (MethodInfo.ofDecl ⟨"T", none⟩ traitFile (raiser "m" (.selfRef default))).adopt owner

/-- The own method of the class `A`. -/
def own : MethodInfo := MethodInfo.ofDecl ⟨"A", none⟩ traitFile (raiser "n" (.staticRef default))

theorem adopted_eq {c : ClassInfo} (ht : c.traits = ["T"]) (hm : c.ownMethod? "m" = none) :
    Index.adopted ⟨traitBlock.classes traitFile, []⟩ c = [copied c.name] := by
  have hget : Index.get? ⟨traitBlock.classes traitFile, []⟩ "T" =
      (traitBlock.classes traitFile).head? := by decide +kernel
  rw [Index.adopted, Index.traitsOf_one ht hget rfl rfl]
  change (distinct _ (List.filter _ [MethodInfo.ofDecl ⟨"T", none⟩ traitFile
    (raiser "m" (.selfRef default))])).map _ = _
  rw [List.filter_cons_of_pos (by rw [MethodInfo.ofDecl, raiser, hm]; rfl)]
  rfl

theorem traitIndex_eq : traitIndex = ⟨(traitBlock.classes traitFile).map fun c =>
    if c.traits = [] then c else { c with methods := c.methods ++ [copied c.name] }, []⟩ := by
  have hcases : ∀ c ∈ traitBlock.classes traitFile,
      c.traits = [] ∨ c.traits = ["T"] ∧ c.ownMethod? "m" = none := by decide +kernel
  rw [traitIndex, Index.applyTraits, Index.mk.injEq]
  refine ⟨List.map_congr_left fun c hc => ?_, rfl⟩
  rcases hcases c hc with ht | ⟨ht, hm⟩
  · rw [Index.adopted_nil ht, List.append_nil, if_pos ht]
  · rw [adopted_eq ht hm, if_neg (by simp [ht])]

end Sample

theorem same_key_same_summary_sample :
    ((Index.build [Sample.traitFile]).run Sample.traitWorkspace).1.method? "a" "N" =
      some Sample.own ∧
    (Frame.mk "B" Sample.own).key = (Frame.mk "b" Sample.own).key ∧
    Summary.Same
      ((scanMethod ((Index.build [Sample.traitFile]).run Sample.traitWorkspace).1 {}
        ⟨"B", Sample.own⟩).run Sample.traitWorkspace).1
      ((scanMethod ((Index.build [Sample.traitFile]).run Sample.traitWorkspace).1 {}
        ⟨"b", Sample.own⟩).run Sample.traitWorkspace).1 := by
  have hm : ((Index.build [Sample.traitFile]).run Sample.traitWorkspace).1.method? "a" "N" =
      some Sample.own := by decide +kernel
  have hkey : (Frame.mk "B" Sample.own).key = (Frame.mk "b" Sample.own).key := by decide +kernel
  have h := same_key_same_summary (f := ⟨"B", Sample.own⟩) (g := ⟨"b", Sample.own⟩) rfl hm hm hkey
    {} Sample.traitWorkspace
  exact ⟨hm, hkey, (h.2 (Or.inl rfl)).1⟩

/- Called on a `B`, the parent's method and the class's own have one key. They raise different
classes. -/
theorem same_key_other_self :
    Sample.traitIndex.method? "A" "m" = some (Sample.copied "A") ∧
    Sample.traitIndex.method? "B" "m" = some (Sample.copied "B") ∧
    (Frame.mk "B" (Sample.copied "A")).key = (Frame.mk "B" (Sample.copied "B")).key ∧
    ((scanMethod Sample.traitIndex {} ⟨"B", Sample.copied "A"⟩).run
      Sample.traitWorkspace).1.raised = NameSet.ofList ["A"] ∧
    ((scanMethod Sample.traitIndex {} ⟨"B", Sample.copied "B"⟩).run
      Sample.traitWorkspace).1.raised = NameSet.ofList ["B"] := by
  rw [Sample.traitIndex_eq]
  decide +kernel

end ContractAudit.Throws
