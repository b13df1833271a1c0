import ContractAudit.Naming.Resolve
import ContractAudit.Proofs.WrittenNames

/-! The full names of a source. Main statements: with names resolved, each name in the types of
methods is a path of identifiers, and no full name of a type begins with a backslash. -/
namespace ContractAudit

open Text Throws Naming

/-- A word that can be an atom of a type: no blank and no sign of a type is in it, and it does not
begin with a backslash or a question mark. -/
structure IsAtom (a : String) : Prop where
  ne_nil : a.toList ≠ []
  plain : ∀ c ∈ a.toList, isBlank c = false ∧ c ∉ ['|', '&', '(', ')']
  first : ∀ c ∈ a.toList.head?, c ≠ '\\' ∧ c ≠ '?'

theorem Throws.IsNameChar.notMem {c : Char} (h : IsNameChar c) {signs : List Char}
    (hsigns : signs.all (fun d => !isIdentChar d && d != '\\') = true) : c ∉ signs := by
  intro hc
  have hsign := List.all_eq_true.mp hsigns c hc
  rcases h with h | rfl
  · simp [h] at hsign
  · simp at hsign

theorem isAtom_of_nameChars {a : String} (hne : a.toList ≠ [])
    (hchars : ∀ c ∈ a.toList, IsNameChar c) (hlead : a.toList.head? ≠ some '\\') : IsAtom a where
  ne_nil := hne
  plain c hc := ⟨(hchars c hc).isBlank, (hchars c hc).notMem (by decide)⟩
  first c hc := by
    have hquestion : c ∉ ['?'] := (hchars c (List.mem_of_mem_head? hc)).notMem (by decide)
    refine ⟨?_, by simpa using hquestion⟩
    rintro rfl
    exact hlead hc

theorem IsPath.isAtom {s : String} (h : IsPath s) : IsAtom s :=
  isAtom_of_nameChars (ne_nil_of_isClassName h.isClassName)
    (isNameChar_of_isClassName h.isClassName) h.head?_ne

theorem IsPath.join_isAtom {a b : String} (ha : IsPath a) (hb : IsAtom b) :
    IsAtom (Naming.join a b) where
  ne_nil := by simp [toList_join]
  plain := by
    rw [toList_join, List.forall_mem_append, List.forall_mem_cons]
    exact ⟨ha.isAtom.plain, by decide, hb.plain⟩
  first := by
    rw [toList_join, List.head?_append_of_ne_nil _ ha.isAtom.ne_nil]
    exact ha.isAtom.first

/- A type may be named by any keyword, which the tag that echoes also stands for. -/
theorem isAtom_declared {name : String} (h : IsPath name ∨ name = "<?=") : IsAtom name := by
  rcases h with hpath | rfl
  · exact hpath.isAtom
  · have hplain : "<?=".toList.all
        (fun c => !isBlank c && !List.contains ['|', '&', '(', ')'] c) = true := by
      decide +kernel
    exact ⟨by simp, fun c hc => by simpa using List.all_eq_true.mp hplain c hc, by simp⟩

namespace NameContext
variable {c : NameContext} {name raw : String}

/-- The namespace and the imports are paths of identifiers. -/
structure Written (c : NameContext) : Prop where
  space : ∀ s ∈ c.space, IsPath s
  imports : ∀ i ∈ c.imports, IsPath i.name

theorem ofBlock_written {b : NamespaceBlock} (h : b.Written) : (ofBlock b).Written where
  space s hs := h.space s (Option.mem_filter_iff.mp hs).1
  imports i hi := by
    obtain ⟨u, hu, rfl⟩ := List.mem_map.mp (List.mem_reverse.mp hi)
    exact h.uses u (List.mem_filter.mp hu).1

theorem qualify_isPath (hc : c.Written) (hname : IsPath name) : IsPath (c.qualify name) := by
  unfold qualify
  split
  · next space hspace => exact (hc.space space hspace).join hname
  · exact hname

theorem imported?_isPath (hc : c.Written) {short : String} (h : c.imported? short = some name) :
    IsPath name := by
  obtain ⟨i, hi, rfl⟩ := Option.map_eq_some_iff.mp h
  exact hc.imports i (List.mem_of_find?_eq_some hi)

theorem resolveParts_isPath (hc : c.Written) (hraw : IsPath raw) {first : String}
    {rest : Option String} (hrest : ∀ r ∈ rest, IsPath r) :
    IsPath (c.resolveParts raw first rest) := by
  unfold resolveParts
  split
  · next r =>
    have hr : IsPath r := hrest r rfl
    split
    · exact qualify_isPath hc hr
    · split
      · next hname => exact (imported?_isPath hc hname).join hr
      · exact qualify_isPath hc hraw
  · cases hname : c.imported? first with
    | some name => exact imported?_isPath hc hname
    | none => exact qualify_isPath hc hraw

theorem isPath_of_isReserved (h : isReserved raw = true) : IsPath (lower raw) := by
  obtain ⟨w, hw, hsame⟩ := List.any_eq_true.mp h
  have hlower : lower w = lower raw := by simpa [same] using hsame
  have hwords : reservedTypes.all
      (fun w => (splitChars '\\' (lower w).toList).all isIdentifier) = true := by
    decide +kernel
  rw [← hlower]
  exact List.all_eq_true.mp hwords w hw

/-- The full name of a class name is a path of identifiers. -/
theorem resolve_isPath (hc : c.Written) (h : isClassName raw.toList = true) :
    IsPath (c.resolve raw) := by
  have hpath := isPath_dropLeading h
  unfold resolve
  split
  · next rest hraw =>
    unfold isClassName at h
    rw [hraw] at h
    rw [IsPath, String.toList_ofList]
    exact h
  · next hplain =>
    have hraw : IsPath raw := by
      rwa [dropLeading_eq_self fun hhead => ?_] at hpath
      obtain ⟨rest, hrest⟩ := List.head?_eq_some_iff.mp hhead
      exact hplain rest hrest
    split
    · next hreserved => exact isPath_of_isReserved hreserved
    · split
      · next hsplit => exact resolveParts_isPath hc hraw (by simpa using hraw.rest hsplit)
      · exact resolveParts_isPath hc hraw (by simp)

theorem qualify_isAtom (hc : c.Written) (hname : IsAtom name) : IsAtom (c.qualify name) := by
  unfold qualify
  split
  · next space hspace => exact (hc.space space hspace).join_isAtom hname
  · exact hname

end NameContext

theorem TypeHint.BuiltOf.resolve {c : NameContext} {P Q : Name → Prop}
    (hname : ∀ n, P n → Q (n.resolve c)) {h : TypeHint} (hh : h.BuiltOf P) :
    (h.resolve c).BuiltOf Q := by
  induction hh with
  | named hn => exact .named (hname _ hn)
  | nullable _ ih => exact .nullable ih
  | union _ ih =>
    rw [TypeHint.resolve, TypeHint.resolveList_eq]
    exact .union (List.forall_mem_map.mpr ih)
  | intersection hne hhs =>
    rw [TypeHint.resolve, TypeHint.resolveList_eq]
    refine .intersection (by simpa using hne) (List.forall_mem_map.mpr ?_)
    intro h hh
    obtain ⟨n, hn, rfl⟩ := hhs h hh
    exact ⟨n.resolve c, hname n hn, rfl⟩

/-- The names in a type are paths of identifiers. -/
structure TypeDecl.Full (t : TypeDecl) : Prop where
  name : IsAtom t.fullName
  parents : ∀ n ∈ t.parents, IsPath n.full
  hints : ∀ m ∈ t.methods, ∀ h ∈ m.hints, h.BuiltOf fun n => IsPath n.full

theorem TypeDecl.Written.resolve {t : TypeDecl} (ht : t.Written) {c : NameContext}
    (hc : c.Written) : (t.resolve c).Full where
  name := NameContext.qualify_isAtom hc (isAtom_declared ht.name)
  parents := List.forall_mem_map.mpr fun n hn => NameContext.resolve_isPath hc (ht.parents n hn)
  hints := by
    refine List.forall_mem_map.mpr fun m hm h hh => ?_
    have hhints : (m.resolve c).hints = m.hints.map (·.resolve c) := by
      cases hresult : m.returnType <;>
        simp [MethodDecl.hints, MethodDecl.resolve, Param.resolve, hresult, List.map_filterMap,
          List.filterMap_map]
    rw [hhints] at hh
    obtain ⟨written, hwritten, rfl⟩ := List.mem_map.mp hh
    exact (ht.hints m hm written hwritten).resolve fun n hn => NameContext.resolve_isPath hc hn

theorem Program.full_ofSource {source : String} {p : Program} (h : ofSource source = .ok p) :
    ∀ t ∈ p.resolve.types, t.Full := by
  obtain ⟨hplain, hblocks⟩ := ofSource_written h
  intro t ht
  rw [Program.resolve, hplain] at ht
  obtain ⟨b', hb', ht⟩ := List.mem_flatMap.mp ht
  obtain ⟨b, hb, rfl⟩ := List.mem_map.mp hb'
  obtain ⟨written, hwritten, rfl⟩ := List.mem_map.mp ht
  exact ((hblocks b hb).types written hwritten).resolve (NameContext.ofBlock_written (hblocks b hb))

/-- No type of a source has a full name that begins with a backslash. -/
theorem Program.fullName_unrooted {source : String} {p : Program} (h : ofSource source = .ok p) :
    ∀ t ∈ p.resolve.types, Text.dropLeading '\\' t.fullName = t.fullName := by
  intro t ht
  exact dropLeading_eq_self fun hhead => ((full_ofSource h t ht).name.first _ hhead).1 rfl

end ContractAudit
