import ContractAudit.Hierarchy.Index

/-! The methods of a class, looked up by name and listed. Main statement: a look-up gives the entry
of the list that has the name, and no two entries have one name, whatever the hierarchy is like. -/
namespace ContractAudit.Index
variable {i : Index} {owner name : String} {m : MethodInfo}

/- The first declaration with a method of that name has the first such method of all. -/
theorem method?_eq_find? (i : Index) (owner name : String) :
    i.method? owner name =
      ((i.declarations owner).flatMap (·.methods)).find? (Text.same ·.name name) := by
  rw [method?_eq_findSome?, List.find?_flatMap]
  rfl

theorem method?_eq_find?_methods (i : Index) (owner name : String) :
    i.method? owner name = (i.methods owner).find? (Text.same ·.name name) := by
  have hname (m n : MethodInfo) (h : Text.same m.name n.name = true) :
      Text.same m.name name = Text.same n.name name := Text.same_congr_left h name
  rw [method?_eq_find?, methods, find?_distinct hname]

/- An entry is found by its own name: any entry before it has another one. -/
theorem method?_of_mem_methods (h : m ∈ i.methods owner) : i.method? owner m.name = some m := by
  rw [method?_eq_find?]
  exact find?_of_mem_distinct (fun m n : MethodInfo => Text.same m.name n.name)
    (fun m => Text.same_refl m.name) h

/-- A look-up finds a method exactly if it is the entry of that name in the list of the methods of
the class, letter case aside. No two entries have one name, and each name that the class, a parent
or an interface declares has its entry. -/
theorem method?_iff_listed (i : Index) (owner : String) :
    (∀ name m, i.method? owner name = some m ↔
      m ∈ i.methods owner ∧ Text.same m.name name = true) ∧
    (i.methods owner).Pairwise (fun m n => Text.same m.name n.name = false) ∧
    ∀ d ∈ i.declarations owner, ∀ m ∈ d.methods,
      ∃ n ∈ i.methods owner, Text.same n.name m.name = true := by
  refine ⟨fun name m => ⟨fun h => ?_, ?_⟩, distinct_pairwise _ _, fun d hd m hm => ?_⟩
  · rw [method?_eq_find?_methods] at h
    exact ⟨List.mem_of_find?_eq_some h, by simpa using List.find?_some h⟩
  · rintro ⟨hm, hname⟩
    have hsame : (fun n : MethodInfo => Text.same n.name m.name) = (Text.same ·.name name) := by
      funext n
      exact Text.same_congr_right hname n.name
    rw [method?_eq_find?, ← hsame, ← method?_eq_find?]
    exact method?_of_mem_methods hm
  · exact exists_mem_distinct (fun m n : MethodInfo => Text.same m.name n.name)
      (fun m => Text.same_refl m.name) Text.same_trans (List.mem_flatMap.mpr ⟨d, hd, hm⟩)

end ContractAudit.Index
