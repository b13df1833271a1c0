import ContractAudit.Proofs.FrameKey
import ContractAudit.Proofs.Trees

/-! The bodies that queries lead to, and their summaries by the trees alone. Main statement: where
frames of one key have methods of one scope, they have one summary, up to the letter case of the
classes of calls. -/
namespace ContractAudit

namespace Index
variable {i : Index}

theorem lineage_congr {unseen : List ClassInfo} {a b : String} (h : classKey a = classKey b) :
    lineage unseen a = lineage unseen b := by
  cases hb : findClass? unseen (classKey b) with
  | none =>
    have ha : findClass? unseen (classKey a) = none := by rw [h, hb]
    rw [lineage_of_none ha, lineage_of_none hb]
  | some c =>
    have ha : findClass? unseen (classKey a) = some c := by rw [h, hb]
    rw [lineage_of_some ha, lineage_of_some hb, h]

theorem method?_congr (i : Index) {a b : String} (h : Text.lower a = Text.lower b)
    (name : String) : i.method? a name = i.method? b name := by
  rw [method?_eq_findSome?, method?_eq_findSome?, declarations, declarations, interfaces,
    interfaces, ascent, ascent, lineage_congr (classKey_congr h), i.get?_congr h]

theorem contains_of_method? {owner name : String} {m : MethodInfo}
    (h : i.method? owner name = some m) : i.contains owner = true := by
  rw [contains]
  cases hget : i.get? owner with
  | some c => rfl
  | none =>
    have hnone : i.declarations owner = [] := by
      rw [declarations, lineage_of_none hget, interfaces, ascent, hget]
      rfl
    rw [method?_eq_findSome?, hnone] at h
    cases h

/-- The files of the methods of a table. -/
def bodyFiles (i : Index) : Set Source.Path :=
  { p | ∃ d ∈ i.classes, ∃ m ∈ d.methods, m.file = some p }

theorem mem_bodyFiles {owner name : String} {m : MethodInfo} (h : i.method? owner name = some m)
    {p : Source.Path} (hp : m.file = some p) : p ∈ i.bodyFiles := by
  obtain ⟨d, hd, hm⟩ := mem_of_method? h
  exact ⟨d, hd, m, List.mem_of_find?_eq_some hm, hp⟩

end Index

namespace Throws

open Source
variable {i : Index} {c : Config} {trees : Path → Option Program} {w : Workspace} {f g : Frame}

def Scan.BoundTo (this : String) (c : Scan) : Prop :=
  ∀ site ∈ c.calls, site.thisClass = this ∨ site.thisClass = site.lookupClass

theorem boundTo_recording {s : Setting} {this : String} (hs : s.thisClass = this) :
    Scan.Recording s (Scan.BoundTo this) where
  tell _ h := h
  raise _ h := h
  follow method ht h := by
    intro site hsite
    rcases List.mem_cons.mp hsite with rfl | hsite
    · exact hs ▸ ht
    · exact h site hsite

theorem summarize_boundTo (s : Setting) (params : List ParamInfo) (b : Block) :
    ∀ site ∈ (summarize s params b).1.calls,
      site.thisClass = s.thisClass ∨ site.thisClass = site.lookupClass := by
  intro site hsite
  rw [summarize_eq] at hsite
  have hstart : (Scan.start (paramLocals s.index params)).BoundTo s.thisClass := by
    intro site hnil
    cases hnil
  exact Scan.Recording.perform (fun guards => boundTo_recording (s.thisClass_within guards))
    (fun _ _ _ h => h) hstart (deeds b) site (List.mem_reverse.mp hsite)

/-- The body of a method. -/
def bodyIn (trees : Path → Option Program) (m : MethodInfo) : Option Block :=
  (m.file.bind trees).bind fun p => (p.method? m.sourceOwner m.name).bind (·.body)

/-- The summary of a body. -/
def summaryIn (i : Index) (c : Config) (trees : Path → Option Program) (f : Frame) : Summary :=
  match bodyIn trees f.method with
  | none => Summary.empty
  | some body => (summarize (settingOf i c f) f.method.params body).1

theorem body?_given {among : Set Path} {m : MethodInfo} (hw : w.Gives among trees)
    (hm : ∀ p, m.file = some p → p ∈ among) :
    ((body? m).run w).1 = bodyIn trees m ∧ ((body? m).run w).2.Gives among trees := by
  rw [body?_run, bodyIn]
  cases hfile : m.file with
  | none => exact ⟨rfl, hw⟩
  | some p =>
    refine ⟨?_, hw.parse (hm p hfile)⟩
    rw [Option.bind_some, ← hw.tree p (hm p hfile), Workspace.tree?, Option.bind_map]
    rfl

theorem scanMethod_given {among : Set Path} (hw : w.Gives among trees)
    (hf : ∀ p, f.method.file = some p → p ∈ among) :
    ((scanMethod i c f).run w).1 = summaryIn i c trees f ∧
      ((scanMethod i c f).run w).2.Gives among trees := by
  obtain ⟨hbody, hw'⟩ := body?_given hw hf
  rw [scanMethod_run, summaryIn, ← hbody]
  rcases hrun : (body? f.method).run w with ⟨_ | body, w'⟩
  · rw [hrun] at hw'
    exact ⟨rfl, hw'⟩
  · rw [hrun] at hw'
    exact ⟨rfl, hw'.told _⟩

/-- A frame of a query, or one that a call of such a frame's body runs. -/
inductive Formed (i : Index) (sum : Frame → Summary) : Frame → Prop where
  | query {owner method : String} {m : MethodInfo} : i.method? owner method = some m →
      Formed i sum ⟨owner, m⟩
  | call {f g : Frame} {site : CallSite} : Formed i sum f → site ∈ (sum f).calls →
      callee? i site = some g → Formed i sum g

theorem callee?_eq_some {site : CallSite} : callee? i site = some f ↔
    i.method? site.lookupClass site.method = some f.method ∧ site.thisClass = f.thisClass := by
  rw [callee?, Option.map_eq_some_iff]
  constructor
  · rintro ⟨m, hm, rfl⟩
    exact ⟨hm, rfl⟩
  · rintro ⟨hm, hthis⟩
    exact ⟨f.method, hm, by rw [hthis]⟩

section
variable {sum : Frame → Summary}

theorem Formed.method (h : Formed i sum f) :
    ∃ owner name, i.method? owner name = some f.method := by
  cases h with
  | query hm => exact ⟨_, _, hm⟩
  | call _ _ hf => exact ⟨_, _, (callee?_eq_some.mp hf).1⟩

theorem Formed.file (h : Formed i sum f) : ∀ p, f.method.file = some p → p ∈ i.bodyFiles := by
  obtain ⟨_, _, hm⟩ := h.method
  exact fun _ => Index.mem_bodyFiles hm

end

theorem Formed.contains (h : Formed i (summaryIn i c trees) f) :
    i.contains f.thisClass = true := by
  induction h with
  | query hm => exact Index.contains_of_method? hm
  | @call f g site _ hsite hg ih =>
    obtain ⟨hm, hthis⟩ := callee?_eq_some.mp hg
    have hbound : site.thisClass = f.thisClass ∨ site.thisClass = site.lookupClass := by
      unfold summaryIn at hsite
      split at hsite
      · cases hsite
      · exact summarize_boundTo _ _ _ site hsite
    rw [← hthis]
    rcases hbound with hbound | hbound
    · rw [hbound]
      exact ih
    · rw [hbound]
      exact Index.contains_of_method? hm

/-- Two summaries raise the same, and their calls are the same up to the letter case of classes. -/
structure Summary.Alike (a b : Summary) : Prop where
  raised : a.raised = b.raised
  calls : a.calls.map CallSite.lowered = b.calls.map CallSite.lowered

theorem Summary.Alike.callee {a b : Summary} {site : CallSite} (h : a.Alike b)
    (hsite : site ∈ a.calls) (hf : callee? i site = some f) :
    ∃ site' ∈ b.calls, site'.caught = site.caught ∧
      ∃ f', callee? i site' = some f' ∧ f'.key = f.key := by
  have hmem : site.lowered ∈ b.calls.map CallSite.lowered := by
    rw [← h.calls]
    exact List.mem_map_of_mem hsite
  obtain ⟨site', hsite', heq⟩ := List.mem_map.mp hmem
  obtain ⟨hthis, hlookup, hmethod, hcaught⟩ := CallSite.mk.inj heq
  obtain ⟨hm, ht⟩ := callee?_eq_some.mp hf
  refine ⟨site', hsite', hcaught, ⟨site'.thisClass, f.method⟩, ?_, ?_⟩
  · rw [callee?_eq_some, i.method?_congr hlookup, hmethod]
    exact ⟨hm, rfl⟩
  · rw [Frame.key, Frame.key, hthis, ht]

/-- The key of a body tells its summary. -/
def KeysTell (i : Index) (sum : Frame → Summary) : Prop :=
  ∀ f g, Formed i sum f → Formed i sum g → f.key = g.key → (sum f).Alike (sum g)

theorem keysTell_of_sameScope (hi : i.Built) (hw : w.Gives i.bodyFiles trees)
    (hscope : ∀ f g, Formed i (summaryIn i c trees) f → Formed i (summaryIn i c trees) g →
      f.key = g.key → SameScope w f g) : KeysTell i (summaryIn i c trees) := by
  intro f g hf hg hkey
  obtain ⟨_, _, hmf⟩ := hf.method
  obtain ⟨_, _, hmg⟩ := hg.method
  have hthis : Text.lower f.thisClass = Text.lower g.thisClass := congrArg CallKey.thisClass hkey
  have hlook : look i id f.thisClass = look i id g.thisClass :=
    Prod.ext hthis (canonical_eq_of_contains hthis hf.contains)
  obtain ⟨hraised, hcalls⟩ := scanMethod_like (c := c) (δ := id) (congrArg Text.lower) hi hmf hmg
    hkey (hscope f g hf hg hkey) hlook
  rw [(scanMethod_given hw hf.file).1, (scanMethod_given hw hg.file).1] at hraised hcalls
  have hpart : CallSite.lowered =
      (fun x => ⟨x.1.1, x.2.1.1, x.2.2.1, x.2.2.2⟩) ∘ lookSite i id := rfl
  constructor
  · apply NameSet.ext
    intro o
    simpa using hraised o
  · rw [hpart, ← List.map_map, ← List.map_map, hcalls]

end Throws

end ContractAudit
