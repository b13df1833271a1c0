import ContractAudit.Proofs.Registry

/-! The types of a table that is built from files. Main statement: no two have one key, a method
belongs to the type that has it, and its body stands in a declared type, in the method's file. -/
namespace ContractAudit

theorem toLower_beq_backslash (c : Char) : (c.toLower == '\\') = (c == '\\') := by
  unfold Char.toLower
  split
  · next h =>
    have hc : c ≠ '\\' := by
      rintro rfl
      exact absurd h (by decide)
    rw [beq_eq_false_iff_ne.mpr hc, beq_eq_false_iff_ne]
    intro heq
    have hval : (c.val + ('a'.val - 'A'.val)).toNat = 92 := congrArg (·.val.toNat) heq
    have hlow : 65 ≤ c.val.toNat := h.1
    have hhigh : c.val.toNat ≤ 90 := h.2
    rw [UInt32.toNat_add] at hval
    have : ('a'.val - 'A'.val).toNat = 32 := rfl
    omega
  · rfl

theorem lower_dropLeading (s : String) : Text.lower (Text.dropLeading '\\' s) =
    Text.dropLeading '\\' (Text.lower s) := by
  have hsame : (fun c : Char => c == '\\') ∘ Char.toLower = fun c => c == '\\' := by
    funext c
    exact toLower_beq_backslash c
  simp only [Text.lower, Text.dropLeading, String.toList_ofList, List.dropWhile_map, hsame]

theorem classKey_congr {a b : String} (h : Text.lower a = Text.lower b) :
    classKey a = classKey b := by
  rw [classKey, classKey, lower_dropLeading, lower_dropLeading, h]

namespace Index

open Source

theorem get?_congr (i : Index) {a b : String} (h : Text.lower a = Text.lower b) :
    i.get? a = i.get? b := by
  rw [get?, get?, classKey_congr h]

theorem isSubtype_congr (i : Index) {a b : String} (h : Text.lower a = Text.lower b)
    (sup : String) : i.isSubtype a sup = i.isSubtype b sup := by
  rw [isSubtype, isSubtype, classKey_congr h, ascent, ascent, i.get?_congr h]

/-- Types as they are declared: each key once, with methods of their own only. -/
structure Declared (i : Index) : Prop where
  distinct : (i.classes.map (·.key)).Nodup
  own : ∀ c ∈ i.classes, ∀ m ∈ c.methods,
    m.declaringClass = c.name ∧ m.sourceOwner = c.name ∧ m.file = c.file

theorem builtin_declared : Declared builtin where
  distinct := Builtin.keys_nodup
  own := by decide +kernel

theorem Declared.insert {i : Index} {c : ClassInfo} (h : Declared i)
    (hc : ∀ m ∈ c.methods, m.declaringClass = c.name ∧ m.sourceOwner = c.name ∧ m.file = c.file) :
    Declared (i.insert c) := by
  unfold Index.insert
  cases hget : i.get? c.name with
  | some kept => exact h
  | none =>
    have hnew : ∀ d ∈ i.classes, d.key ≠ c.key := by
      intro d hd heq
      have hno := List.find?_eq_none.mp hget d hd
      rw [heq, c.key_eq] at hno
      simp at hno
    constructor
    · rw [List.map_append, List.nodup_append]
      refine ⟨h.distinct, List.nodup_singleton _, ?_⟩
      intro a ha b hb
      obtain ⟨d, hd, rfl⟩ := List.mem_map.mp ha
      rw [List.mem_singleton.mp hb]
      exact hnew d hd
    · intro d hd
      rcases List.mem_append.mp hd with hd | hd
      · exact h.own d hd
      · rw [List.mem_singleton.mp hd]
        exact hc

theorem own_ofDecl (context : NameContext) (file : Path) (t : TypeDecl) :
    ∀ m ∈ (ClassInfo.ofDecl context file t).methods, m.declaringClass = t.fullName ∧
      m.sourceOwner = t.fullName ∧ m.file = some file := by
  intro m hm
  obtain ⟨d, _, rfl⟩ := List.mem_map.mp hm
  exact ⟨rfl, rfl, rfl⟩

/- What each step keeps, a run of steps keeps. -/
theorem foldlM_keeps {α : Type} {P : Index → Prop} {f : Index → α → Work Index} {as : List α}
    {i : Index} (hi : P i) (hf : ∀ i, ∀ a ∈ as, ∀ w, P i → P ((f i a).run w).1) (w : Workspace) :
    P ((as.foldlM f i).run w).1 := by
  induction as generalizing i w with
  | nil => exact hi
  | cons a as ih =>
    have hnext := hf i a List.mem_cons_self w hi
    exact ih hnext (fun i b hb => hf i b (List.mem_cons_of_mem _ hb)) ((f i a).run w).2

theorem Declared.addBlock {i : Index} (h : Declared i) (file : Path) (b : NamespaceBlock)
    (w : Workspace) : Declared ((Index.addBlock file i b).run w).1 := by
  refine foldlM_keeps (f := fun i c => do
    Work.tellAll (i.insertEvents c)
    return i.insert c) h ?_ _
  intro i c hc w hi
  obtain ⟨t, _, rfl⟩ := List.mem_map.mp hc
  exact hi.insert (own_ofDecl _ file t)

theorem Declared.addFile {i : Index} (h : Declared i) (path : Path) (w : Workspace) :
    Declared ((Index.addFile i path).run w).1 := by
  rw [Index.addFile, StateT.run_bind]
  rcases (Workspace.parse path).run w with ⟨_ | f, w'⟩
  · exact ⟨h.distinct, h.own⟩
  · exact foldlM_keeps h (fun i b _ w hi => hi.addBlock f.path b w) w'

theorem mem_dropClass {classes : List ClassInfo} {key : String} {c : ClassInfo}
    (h : c ∈ dropClass classes key) : c ∈ classes := (List.mem_filter.mp h).1

theorem mem_of_expandTraits {unseen : List ClassInfo} {seen names : List String} {n : String}
    {t : ClassInfo} (h : (n, some t) ∈ expandTraits unseen seen names) : t ∈ unseen := by
  fun_induction expandTraits unseen seen names with
  | case1 => cases h
  | case2 _ _ _ _ _ ih => exact ih h
  | case3 _ _ _ _ _ _ ih =>
    rcases List.mem_cons.mp h with h | h
    · cases h
    · exact ih h
  | case4 _ _ _ _ _ t' hfound _ ih =>
    rcases List.mem_cons.mp h with h | h
    · cases h
      exact List.mem_of_find?_eq_some hfound
    · exact mem_dropClass (ih h)
  | case5 _ _ _ _ _ _ _ _ ih =>
    rcases List.mem_cons.mp h with h | h
    · cases h
    · exact ih h

theorem traitsOf_nil {i : Index} {c : ClassInfo} (h : c.traits = []) : i.traitsOf c = [] := by
  rw [traitsOf, h, expandTraits]

theorem adopted_nil {i : Index} {c : ClassInfo} (h : c.traits = []) : i.adopted c = [] := by
  rw [adopted, traitsOf_nil h]
  rfl

theorem traitsOf_one {i : Index} {c t : ClassInfo} {n : String} (h : c.traits = [n])
    (ht : i.get? n = some t) (hk : t.kind = .traitType) (hn : t.traits = []) :
    i.traitsOf c = [(n, some t)] := by
  rw [traitsOf, h, expandTraits]
  simp only [List.contains_nil, Bool.false_eq_true, if_false]
  split
  · next hnone =>
    cases hnone.symm.trans ht
  · next u hu =>
    cases hu.symm.trans ht
    rw [if_pos hk, hn, List.nil_append, expandTraits]

/-- A method that a class takes over is one of a declared type. -/
theorem mem_adopted {i : Index} {c : ClassInfo} {m : MethodInfo} (h : m ∈ i.adopted c) :
    ∃ t ∈ i.classes, ∃ d ∈ t.methods, m = d.adopt c.name := by
  obtain ⟨d, hd, rfl⟩ := List.mem_map.mp h
  have hoffered := (List.mem_filter.mp (mem_of_mem_distinct hd)).1
  obtain ⟨⟨n, t⟩, ht, hdt⟩ := List.mem_flatMap.mp hoffered
  cases t with
  | none => cases hdt
  | some t => exact ⟨t, mem_of_expandTraits ht, d, hdt, rfl⟩

/-- Types with the methods of their traits. -/
structure Built (i : Index) : Prop where
  distinct : (i.classes.map (·.key)).Nodup
  declaring : ∀ c ∈ i.classes, ∀ m ∈ c.methods, m.declaringClass = c.name
  source : ∀ c ∈ i.classes, ∀ m ∈ c.methods,
    ∃ t ∈ i.classes, t.name = m.sourceOwner ∧ t.file = m.file

theorem Declared.applyTraits {i : Index} (h : Declared i) : Built i.applyTraits := by
  have hsame {t : ClassInfo} (ht : t ∈ i.classes) :
      ∃ t' ∈ i.applyTraits.classes, t'.name = t.name ∧ t'.file = t.file :=
    ⟨_, List.mem_map_of_mem ht, rfl, rfl⟩
  constructor
  · rw [Index.applyTraits, List.map_map]
    exact h.distinct
  · intro c hc m hm
    obtain ⟨d, hd, rfl⟩ := List.mem_map.mp hc
    rcases List.mem_append.mp hm with hm | hm
    · exact (h.own d hd m hm).1
    · obtain ⟨_, _, _, _, rfl⟩ := mem_adopted hm
      rfl
  · intro c hc m hm
    obtain ⟨d, hd, rfl⟩ := List.mem_map.mp hc
    rcases List.mem_append.mp hm with hm | hm
    · obtain ⟨_, hsource, hfile⟩ := h.own d hd m hm
      rw [hsource, hfile]
      exact hsame hd
    · obtain ⟨t, ht, n, hn, rfl⟩ := mem_adopted hm
      obtain ⟨_, hsource, hfile⟩ := h.own t ht n hn
      have hfrom : ∃ t' ∈ i.applyTraits.classes, t'.name = n.sourceOwner ∧ t'.file = n.file := by
        rw [hsource, hfile]
        exact hsame ht
      exact hfrom

theorem build_built (paths : List Path) (w : Workspace) : Built ((build paths).run w).1 := by
  rw [build_eq_assemble]
  have h : Declared ((paths.foldlM addFile builtin).run w).1 :=
    foldlM_keeps builtin_declared (fun i p _ w hi => hi.addFile p w) w
  exact h.applyTraits

theorem mem_of_lineage {unseen : List ClassInfo} {name : String} {c : ClassInfo}
    (h : c ∈ lineage unseen name) : c ∈ unseen := by
  fun_induction lineage unseen name with
  | case1 => cases h
  | case2 unseen name d hfound ih =>
    rcases List.mem_cons.mp h with rfl | h
    · exact List.mem_of_find?_eq_some hfound
    · split at h
      · cases h
      · exact mem_dropClass (ih _ h)

theorem mem_of_method? {i : Index} {owner name : String} {m : MethodInfo}
    (h : i.method? owner name = some m) : ∃ c ∈ i.classes, c.ownMethod? name = some m := by
  rw [method?_eq_findSome?] at h
  obtain ⟨c, hc, hm⟩ := List.exists_of_findSome?_eq_some h
  refine ⟨c, ?_, hm⟩
  rcases List.mem_append.mp hc with hc | hc
  · exact mem_of_lineage hc
  · obtain ⟨_, _, hget⟩ := List.mem_filterMap.mp hc
    exact List.mem_of_find?_eq_some hget

theorem Built.unique {i : Index} (h : Built i) {c d : ClassInfo} (hc : c ∈ i.classes)
    (hd : d ∈ i.classes) (heq : classKey c.name = classKey d.name) : c = d :=
  List.inj_on_of_nodup_map h.distinct hc hd (by rw [c.key_eq, d.key_eq, heq])

end Index

end ContractAudit
