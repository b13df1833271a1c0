import ContractAudit.Proofs.TraitExpansion

/-! Methods with a body and abstract methods of traits. Main statement: if a class, a parent or a
trait that they use declares a method, a look-up gives the first declaration in the order of the
parents, each with its own methods and then those its traits offer. So it gives a method without a
body exactly if one comes before all that have a body. -/
namespace ContractAudit

open Source

namespace Index
variable {i : Index} {ns seen last : List String} {ms : List MethodInfo} {c : ClassInfo}
  {d : MethodInfo} {name owner : String}

theorem Visits.sound (h : i.Visits seen ns ms last) :
    ∀ d ∈ ms, ∃ k t, i.Leads ns k ∧ i.traitAt? k = some t ∧ d ∈ t.methods := by
  induction h with
  | nil => simp
  | again _ _ ih =>
    intro d hd
    obtain ⟨k, t, hleads, ht⟩ := ih d hd
    exact ⟨k, t, hleads.cons, ht⟩
  | other _ _ _ ih =>
    intro d hd
    obtain ⟨k, t, hleads, ht⟩ := ih d hd
    exact ⟨k, t, hleads.cons, ht⟩
  | @trait _ n _ t _ _ _ _ _ hsome _ _ ih ihrest =>
    intro d hd
    rcases List.mem_append.mp hd with hd | hd
    · rcases List.mem_append.mp hd with hd | hd
      · exact ⟨classKey n, t, .self, hsome, hd⟩
      · obtain ⟨k, u, hleads, hu⟩ := ih d hd
        exact ⟨k, u, hleads.head hsome, hu⟩
    · obtain ⟨k, u, hleads, hu⟩ := ihrest d hd
      exact ⟨k, u, hleads.cons, hu⟩

/- A trait that is come to brings its methods, and what it uses is come to. -/
theorem Visits.closed (h : i.Visits seen ns ms last) :
    seen ⊆ last ∧ (∀ n ∈ ns, classKey n ∈ last) ∧ ∀ k ∈ last, k ∈ seen ∨
      ∀ t, i.traitAt? k = some t → t.methods ⊆ ms ∧ ∀ n ∈ t.traits, classKey n ∈ last := by
  induction h with
  | nil => exact ⟨List.Subset.refl _, by simp, fun _ => .inl⟩
  | again hseen _ ih =>
    obtain ⟨hkept, hnames, hclosed⟩ := ih
    exact ⟨hkept, List.forall_mem_cons.mpr ⟨hkept hseen, hnames⟩, hclosed⟩
  | other _ hnone _ ih =>
    obtain ⟨hkept, hnames, hclosed⟩ := ih
    obtain ⟨hn, hkept⟩ := List.cons_subset.mp hkept
    refine ⟨hkept, List.forall_mem_cons.mpr ⟨hn, hnames⟩, fun k hk => ?_⟩
    rcases hclosed k hk with hk | hk
    · rcases List.mem_cons.mp hk with rfl | hk
      · exact .inr fun t ht => by cases hnone.symm.trans ht
      · exact .inl hk
    · exact .inr hk
  | @trait _ n _ t nested _ ms _ _ hsome _ _ ih ihrest =>
    obtain ⟨hkept₁, hnames₁, hclosed₁⟩ := ih
    obtain ⟨hkept₂, hnames₂, hclosed₂⟩ := ihrest
    obtain ⟨hn, hkept₁⟩ := List.cons_subset.mp hkept₁
    refine ⟨List.Subset.trans hkept₁ hkept₂, List.forall_mem_cons.mpr ⟨hkept₂ hn, hnames₂⟩,
      fun k hk => ?_⟩
    rcases hclosed₂ k hk with hk | hk
    · rcases hclosed₁ k hk with hk | hk
      · rcases List.mem_cons.mp hk with rfl | hk
        · refine .inr fun u hu => ?_
          cases hsome.symm.trans hu
          exact ⟨fun m hm => by simp [hm], fun m hm => hkept₂ (hnames₁ m hm)⟩
        · exact .inl hk
      · refine .inr fun u hu => ?_
        obtain ⟨hmethods, hused⟩ := hk u hu
        exact ⟨fun m hm => by simp [hmethods hm], fun m hm => hkept₂ (hused m hm)⟩
    · refine .inr fun u hu => ?_
      obtain ⟨hmethods, hused⟩ := hk u hu
      exact ⟨fun m hm => by simp [hmethods hm], hused⟩

/-- What is offered to a class are the methods of all traits that it leads to. -/
theorem mem_offered_iff :
    d ∈ i.offered c ↔ ∃ k t, i.Leads c.traits k ∧ i.traitAt? k = some t ∧ d ∈ t.methods := by
  obtain ⟨last, hvisits⟩ := (i.visits_iff_offered c).mpr rfl
  constructor
  · exact hvisits.sound d
  · rintro ⟨k, t, ⟨n, hn, hpath⟩, ht, hd⟩
    obtain ⟨_, hnames, hclosed⟩ := hvisits.closed
    have hcome : k ∈ last := by
      clear ht
      induction hpath with
      | refl => exact hnames n hn
      | tail _ huses ih =>
        obtain ⟨u, hu, m, hm, rfl⟩ := huses
        rcases hclosed _ ih with hnil | hu'
        · cases hnil
        · exact (hu' u hu).2 m hm
    rcases hclosed k hcome with hnil | ht'
    · cases hnil
    · exact (ht' t ht).1 hd

/-- The class declares the method, or a trait does that it uses, itself or through traits. -/
def Supplies (i : Index) (c : ClassInfo) (d : MethodInfo) : Prop :=
  d ∈ c.methods ∨ ∃ k t, i.Leads c.traits k ∧ i.traitAt? k = some t ∧ d ∈ t.methods

/-- The declarations of methods at a class and its parents, in that order: the own ones of each, and
then those that its traits offer. -/
def supplied (i : Index) (owner : String) : List MethodInfo :=
  (lineage i.classes owner).flatMap fun c => c.methods ++ i.offered c

theorem mem_supplied_iff :
    d ∈ i.supplied owner ↔ ∃ c ∈ lineage i.classes owner, i.Supplies c d := by
  rw [supplied, List.mem_flatMap]
  simp only [List.mem_append, mem_offered_iff, Supplies]

/-- A class with what it takes from traits. -/
def complete (i : Index) (c : ClassInfo) : ClassInfo :=
  { c with methods := c.methods ++ i.adopted c }

theorem ownMethod?_complete (i : Index) (c : ClassInfo) (name : String) :
    (i.complete c).ownMethod? name = (c.ownMethod? name).or
      (((i.offered c).find? (Text.same ·.name name)).map (·.adopt c.name)) := by
  rw [complete, ClassInfo.ownMethod?, List.find?_append]
  change (c.ownMethod? name).or _ = _
  cases hown : c.ownMethod? name with
  | some m => rfl
  | none =>
    rw [Option.none_or, Option.none_or, adopted_eq_firstOfNames, List.find?_map]
    refine congrArg (Option.map _) ?_
    have hname (m n : MethodInfo) (h : m.sameName n = true) :
        Text.same m.name name = Text.same n.name name := Text.same_congr_left h name
    -- a method of this name is not among those of the class, so it is not left out
    have hleft : (fun m : MethodInfo => decide ((!c.methods.any (·.sameName m)) = true ∧
        Text.same m.name name = true)) = (Text.same ·.name name) := by
      funext m
      cases hm : Text.same m.name name with
      | false => simp
      | true =>
        have hfree : c.methods.any (·.sameName m) = false := by
          refine List.any_eq_false.mpr fun n hn hnm => ?_
          exact List.find?_eq_none.mp hown n hn (Text.same_trans hnm hm)
        simp [hfree]
    rw [firstOfNames_eq_filter, List.find?_filter]
    exact (congrArg (List.find? · _) hleft).trans (find?_distinct hname _)

theorem lineage_map {f : ClassInfo → ClassInfo} (hkey : ∀ c, (f c).key = c.key)
    (hparent : ∀ c, (f c).parent = c.parent) (cs : List ClassInfo) (name : String) :
    lineage (cs.map f) name = (lineage cs name).map f := by
  fun_induction lineage cs name with
  | case1 cs name hnone =>
    exact lineage_of_none (by rw [findClass?_map hkey, hnone]; rfl)
  | case2 cs name c hsome ih =>
    have hsome' : findClass? (cs.map f) (classKey name) = some (f c) := by
      rw [findClass?_map hkey, hsome]
      rfl
    have hdrop : dropClass (cs.map f) (classKey name) = (dropClass cs (classKey name)).map f := by
      rw [dropClass, dropClass, List.filter_map]
      simp only [Function.comp_def, hkey]
    rw [lineage_of_some hsome', hparent]
    cases hp : c.parent with
    | none => rfl
    | some p =>
      dsimp only
      rw [hdrop, ih p, List.map_cons]

/- Both searches stop at the same declaration, if at any. -/
theorem findSome?_complete (i : Index) (cs : List ClassInfo) (name : String) :
    let found := (cs.map i.complete).findSome? (·.ownMethod? name)
    let first := (cs.flatMap fun c => c.methods ++ i.offered c).find? (Text.same ·.name name)
    (found = none ∧ first = none) ∨ ∃ m d, found = some m ∧ first = some d ∧
      (m = d ∨ m = d.adopt m.declaringClass) := by
  induction cs with
  | nil => exact .inl ⟨rfl, rfl⟩
  | cons c cs ih =>
    intro found first
    have hfound : found = ((i.complete c).ownMethod? name).or
        ((cs.map i.complete).findSome? (·.ownMethod? name)) := by
      change List.findSome? _ (i.complete c :: cs.map i.complete) = _
      rw [List.findSome?_cons]
      cases (i.complete c).ownMethod? name <;> rfl
    have hfirst : first = ((c.ownMethod? name).or
        ((i.offered c).find? (Text.same ·.name name))).or
          ((cs.flatMap fun c => c.methods ++ i.offered c).find? (Text.same ·.name name)) := by
      change List.find? _ (c.methods ++ i.offered c ++ _) = _
      rw [List.find?_append, List.find?_append]
      rfl
    rw [hfound, hfirst, ownMethod?_complete]
    cases c.ownMethod? name with
    | some m => exact .inr ⟨m, m, rfl, rfl, .inl rfl⟩
    | none =>
      cases (i.offered c).find? (Text.same ·.name name) with
      | some d => exact .inr ⟨d.adopt c.name, d, rfl, rfl, .inr rfl⟩
      | none => exact ih

/-- A look-up gives the first declaration of the class and its parents, if there is one. -/
theorem method?_of_supplied {first : MethodInfo}
    (h : (i.supplied owner).find? (Text.same ·.name name) = some first) :
    ∃ m, i.applyTraits.method? owner name = some m ∧
      (m = first ∨ m = first.adopt m.declaringClass) := by
  have hlineage : lineage i.applyTraits.classes owner = (lineage i.classes owner).map i.complete :=
    lineage_map (f := i.complete) (fun _ => rfl) (fun _ => rfl) i.classes owner
  rcases i.findSome?_complete (lineage i.classes owner) name with ⟨_, hnone⟩ | ⟨m, d, hm, hd, hmd⟩
  · cases hnone.symm.trans h
  · cases hd.symm.trans h
    refine ⟨m, ?_, hmd⟩
    rw [method?, inherited?_eq_findSome?, hlineage, hm]

/- The first declaration of a name has no body exactly if one without comes before all with one. -/
theorem isAbstract_first_iff {all : List MethodInfo} {first : MethodInfo}
    (h : all.find? (Text.same ·.name name) = some first) : first.isAbstract = true ↔
      ∃ before a after, all = before ++ a :: after ∧ Text.same a.name name = true ∧
        a.isAbstract = true ∧ ∀ b ∈ before, Text.same b.name name = true → b.isAbstract = true := by
  obtain ⟨hfirst, before, after, rfl, hbefore⟩ := List.find?_eq_some_iff_append.mp h
  constructor
  · intro habstract
    refine ⟨before, first, after, rfl, hfirst, habstract, fun b hb hname => ?_⟩
    simpa [hname] using hbefore b hb
  · rintro ⟨before', a, after', hall, hname, habstract, hothers⟩
    have hfind : (before' ++ a :: after').find? (Text.same ·.name name) = some first := hall ▸ h
    rw [List.find?_append] at hfind
    rcases Option.or_eq_some_iff.mp hfind with hfind | ⟨_, hfind⟩
    · exact hothers first (List.mem_of_find?_eq_some hfind) hfirst
    · rw [List.find?_cons_of_pos (by simpa using hname)] at hfind
      cases hfind
      exact habstract

/-- Let a class, a parent or a trait they use declare a method, in a table of files. Then the method
is found, and it is the first declaration of the name in the order of the parents, each with its own
methods and then those of its traits. It has no body exactly if in this order a declaration without
one comes before all that have one. -/
theorem method?_body (paths : List Path) (w : Workspace) (owner name : String) (c : ClassInfo)
    (d : MethodInfo) :
    let built := ((build paths).run w).1
    let declared := declaredIn ((Workspace.parseAll paths).run w).1
    c ∈ lineage declared.classes owner → declared.Supplies c d → Text.same d.name name = true →
    ∃ m first, built.method? owner name = some m ∧
      (declared.supplied owner).find? (Text.same ·.name name) = some first ∧
      (m = first ∨ m = first.adopt m.declaringClass) ∧
      (m.isAbstract = true ↔ ∃ before a after, declared.supplied owner = before ++ a :: after ∧
        Text.same a.name name = true ∧ a.isAbstract = true ∧
        ∀ b ∈ before, Text.same b.name name = true → b.isAbstract = true) := by
  intro built declared hc hd hname
  have hbuilt : built = declared.applyTraits := build_eq_applyTraits paths w
  clear_value built declared
  subst hbuilt
  have hmem : d ∈ declared.supplied owner := mem_supplied_iff.mpr ⟨c, hc, hd⟩
  obtain ⟨first, hfirst⟩ := Option.isSome_iff_exists.mp
    (List.find?_isSome.mpr ⟨d, hmem, hname⟩ :
      ((declared.supplied owner).find? (Text.same ·.name name)).isSome = true)
  obtain ⟨m, hm, hmade⟩ := method?_of_supplied hfirst
  have habstract : m.isAbstract = first.isAbstract := by
    rcases hmade with rfl | hmade
    · rfl
    · rw [hmade]
      rfl
  refine ⟨m, first, hm, hfirst, hmade, ?_⟩
  rw [habstract]
  exact isAbstract_first_iff hfirst

end Index

namespace Sample

theorem sharing_visits_single : ∃ last, sharingDeclared.Visits [] classE.traits
    [onLine 3 "B" "m", relative, bodiless, onLine 2 "A" "own"] last :=
  ⟨_, .trait List.not_mem_nil sharing_B
    (.trait (by decide) sharing_A .nil .nil) .nil⟩

theorem sharing_lineage_D :
    Index.lineage sharingDeclared.classes "D" = [classD, classP] := by
  have hD : findClass? sharingDeclared.classes (classKey "D") = some classD :=
    sharing_find (c := classD) (by simp [sharingTypes])
  have hP : findClass? (dropClass sharingDeclared.classes (classKey "D")) (classKey "P") =
      some classP := by
    rw [findClass?_dropClass, if_neg (by decide)]
    exact sharing_find (c := classP) (by simp [sharingTypes])
  rw [Index.lineage_of_some hD]
  change classD :: Index.lineage _ "P" = _
  rw [Index.lineage_of_some hP]
  rfl

theorem sharing_lineage_E : Index.lineage sharingDeclared.classes "E" = [classE] := by
  have hE : findClass? sharingDeclared.classes (classKey "E") = some classE :=
    sharing_find (c := classE) (by simp [sharingTypes])
  rw [Index.lineage_of_some hE]
  rfl

theorem sharing_supplied_D : sharingDeclared.supplied "D" =
    [onLine 5 "D" "own", bodiless, onLine 2 "A" "own", onLine 3 "B" "m", relative,
      onLine 4 "P" "m"] := by
  have hD := (sharingDeclared.visits_iff_offered classD).mp sharing_visits
  have hP := (sharingDeclared.visits_iff_offered classP).mp ⟨[], .nil⟩
  rw [Index.supplied, sharing_lineage_D, List.flatMap_cons, List.flatMap_singleton, ← hD, ← hP]
  rfl

theorem sharing_supplied_E : sharingDeclared.supplied "E" =
    [onLine 3 "B" "m", relative, bodiless, onLine 2 "A" "own"] := by
  have hE := (sharingDeclared.visits_iff_offered classE).mp sharing_visits_single
  rw [Index.supplied, sharing_lineage_E, List.flatMap_singleton, ← hE]
  rfl

end Sample

/- A trait has a body for a method that a trait it uses declares without one. -/
theorem Index.method?_body_sample :
    let declared := declaredIn ((Workspace.parseAll [⟨"a.php"⟩]).run (inMemory Sample.sharing)).1
    Sample.classE ∈ lineage declared.classes "E" ∧
    declared.Supplies Sample.classE Sample.bodiless ∧
    Text.same Sample.bodiless.name "M" = true ∧
    ∃ m, ((build [⟨"a.php"⟩]).run (inMemory Sample.sharing)).1.method? "E" "M" = some m ∧
      m.sourceOwner = "B" ∧ m.isAbstract = false := by
  have hbody := method?_body [⟨"a.php"⟩] (inMemory Sample.sharing) "E" "M" Sample.classE
    Sample.bodiless
  rw [Sample.sharing_declared] at hbody ⊢
  have hmem : Sample.classE ∈ lineage Sample.sharingDeclared.classes "E" := by
    rw [Sample.sharing_lineage_E]
    exact List.mem_singleton_self _
  have hsupplies : Sample.sharingDeclared.Supplies Sample.classE Sample.bodiless := by
    refine .inr (mem_offered_iff.mp ?_)
    rw [← (Sample.sharingDeclared.visits_iff_offered Sample.classE).mp Sample.sharing_visits_single]
    simp
  have hsame : Text.same Sample.bodiless.name "M" = true := by decide
  obtain ⟨m, first, hm, hfirst, hmade, _⟩ := hbody hmem hsupplies hsame
  have hB : (Sample.sharingDeclared.supplied "E").find? (Text.same ·.name "M") =
      some (Sample.onLine 3 "B" "m") := by
    rw [Sample.sharing_supplied_E]
    decide +kernel
  cases hfirst.symm.trans hB
  refine ⟨hmem, hsupplies, hsame, m, hm, ?_⟩
  rcases hmade with rfl | hmade
  · exact ⟨rfl, rfl⟩
  · rw [hmade]
    exact ⟨rfl, rfl⟩

/- A class and a trait that it uses second: the trait has a body for the method, and so does the
parent, but what the first trait declares is found. -/
theorem Index.abstract_method_hides_bodies :
    let declared := declaredIn ((Workspace.parseAll [⟨"a.php"⟩]).run (inMemory Sample.sharing)).1
    lineage declared.classes "D" = [Sample.classD, Sample.classP] ∧
    Sample.classD.ownMethod? "m" = none ∧
    declared.Supplies Sample.classD (Sample.onLine 3 "B" "m") ∧
    declared.Supplies Sample.classP (Sample.onLine 4 "P" "m") ∧
    (Sample.onLine 3 "B" "m").isAbstract = false ∧ (Sample.onLine 4 "P" "m").isAbstract = false ∧
    (((build [⟨"a.php"⟩]).run (inMemory Sample.sharing)).1.method? "D" "m").map (·.isAbstract) =
      some true := by
  rw [build_eq_applyTraits, Sample.sharing_declared]
  have hP : Sample.onLine 4 "P" "m" ∈ Sample.classP.methods := List.mem_singleton_self _
  refine ⟨Sample.sharing_lineage_D, by decide, .inr ?_, .inl hP, rfl, rfl, ?_⟩
  · exact ⟨_, Sample.traitB, ⟨"B", by simp [Sample.classD, Sample.sharingType], .refl⟩,
      Sample.sharing_B, by simp [Sample.traitB, Sample.sharingType]⟩
  · have hfirst : (Sample.sharingDeclared.supplied "D").find? (Text.same ·.name "m") =
        some Sample.bodiless := by
      rw [Sample.sharing_supplied_D]
      decide +kernel
    obtain ⟨m, hm, hmade⟩ := method?_of_supplied hfirst
    rw [hm]
    rcases hmade with rfl | hmade
    · rfl
    · rw [hmade]
      rfl

end ContractAudit
