import ContractAudit.Proofs.SameDeclaration
import ContractAudit.Proofs.TraitBodies
import Mathlib.Data.List.Forall2

/-! The types of methods that classes take from traits. Main statement: a class takes the trait's
place in them, so they are as if written in the class, unless a hint says `parent` and the class has
a parent, or names the trait itself: both stand for the class. -/
namespace ContractAudit

open Source

namespace Signature

/-- Both have the same alternatives, repetitions and letter case aside. -/
def SameAlternatives (s t : Signature) : Prop :=
  (∀ a ∈ s.alternatives, ∃ b ∈ t.alternatives, Conjunction.same a b = true) ∧
    ∀ b ∈ t.alternatives, ∃ a ∈ s.alternatives, Conjunction.same a b = true

/-- What becomes of an atom. -/
def rebindAtom (old new atom : String) : String := if Text.same atom old then new else atom

theorem conjunctionSame_symm {a b : Conjunction} (h : Conjunction.same a b = true) :
    Conjunction.same b a = true := beq_iff_eq.mpr (beq_iff_eq.mp h).symm

theorem conjunctionSame_trans {a b c : Conjunction} (h : Conjunction.same a b = true)
    (h' : Conjunction.same b c = true) : Conjunction.same a c = true :=
  beq_iff_eq.mpr ((beq_iff_eq.mp h).trans (beq_iff_eq.mp h'))

theorem exists_mem_distinct_same {a : Conjunction} {as : List Conjunction} (h : a ∈ as) :
    ∃ b ∈ distinct Conjunction.same as, Conjunction.same b a = true :=
  exists_mem_distinct Conjunction.same (fun _ => beq_self_eq_true _) conjunctionSame_trans h

theorem map_rebindAtom_same (old new : String) {a b : Conjunction}
    (h : Conjunction.same a b = true) :
    Conjunction.same (a.map (rebindAtom old new)) (b.map (rebindAtom old new)) = true := by
  have hlower (c : Conjunction) : (c.map (rebindAtom old new)).map Text.lower =
      (c.map Text.lower).map fun x => if x == Text.lower old then Text.lower new else x := by
    rw [List.map_map, List.map_map]
    refine List.map_congr_left fun x _ => ?_
    rw [Function.comp_apply, rebindAtom, apply_ite Text.lower]
    rfl
  rw [Conjunction.same, hlower, hlower, beq_iff_eq.mp h]
  exact beq_self_eq_true _

/- It does not matter whether repetitions are left out before or after. -/
theorem rebind_sameAlternatives (old new : String) (cs : List Conjunction) :
    ((ofAlternatives cs).rebind old new).SameAlternatives
      (ofAlternatives (cs.map (List.map (rebindAtom old new)))) := by
  constructor
  · intro a ha
    obtain ⟨b, hb, rfl⟩ := List.mem_map.mp ha
    obtain ⟨d, hd, hsame⟩ := exists_mem_distinct_same
      (List.mem_map_of_mem (f := List.map (rebindAtom old new)) (mem_of_mem_distinct hb))
    exact ⟨d, hd, conjunctionSame_symm hsame⟩
  · intro b hb
    obtain ⟨a, ha, rfl⟩ := List.mem_map.mp (mem_of_mem_distinct hb)
    obtain ⟨d, hd, hsame⟩ := exists_mem_distinct_same ha
    exact ⟨_, List.mem_map_of_mem hd, map_rebindAtom_same old new hsame⟩

mutual

/-- The hint with its names replaced. -/
def mapNames (f : Name → Name) : TypeHint → TypeHint
  | .named n => .named (f n)
  | .nullable h => .nullable (mapNames f h)
  | .union hs => .union (mapNamesList f hs)
  | .intersection hs => .intersection (mapNamesList f hs)

def mapNamesList (f : Name → Name) : List TypeHint → List TypeHint
  | [] => []
  | h :: hs => mapNames f h :: mapNamesList f hs

end

mutual

theorem hintNames_mapNames (f : Name → Name) (h : TypeHint) :
    hintNames (mapNames f h) = (hintNames h).map f := by
  cases h with
  | named n => rfl
  | nullable h => exact hintNames_mapNames f h
  | union hs => exact hintNamesList_mapNames f hs
  | intersection hs => exact hintNamesList_mapNames f hs

theorem hintNamesList_mapNames (f : Name → Name) (hs : List TypeHint) :
    hintNamesList (mapNamesList f hs) = (hintNamesList hs).map f := by
  cases hs with
  | nil => rfl
  | cons h hs =>
    rw [mapNamesList, hintNamesList, hintNamesList, List.map_append, hintNames_mapNames f h,
      hintNamesList_mapNames f hs]

end

mutual

theorem mapNames_eq_self {f : Name → Name} (h : TypeHint) (hn : ∀ n ∈ hintNames h, f n = n) :
    mapNames f h = h := by
  cases h with
  | named n => exact congrArg TypeHint.named (hn n (by simp [hintNames]))
  | nullable h => exact congrArg TypeHint.nullable (mapNames_eq_self h hn)
  | union hs => exact congrArg TypeHint.union (mapNamesList_eq_self hs hn)
  | intersection hs => exact congrArg TypeHint.intersection (mapNamesList_eq_self hs hn)

theorem mapNamesList_eq_self {f : Name → Name} (hs : List TypeHint)
    (hn : ∀ n ∈ hintNamesList hs, f n = n) : mapNamesList f hs = hs := by
  cases hs with
  | nil => rfl
  | cons h hs =>
    obtain ⟨hfirst, hothers⟩ := List.forall_mem_append.mp hn
    rw [mapNamesList, mapNames_eq_self h hfirst, mapNamesList_eq_self hs hothers]

end

/-- Does a name in a trait stand for the trait? -/
def Scope.owns (trait : Scope) (n : Name) : Bool := Text.same (normalize n.full) trait.self

/-- The name, with `self` in place of the trait's own name. -/
def Scope.selfFor (trait : Scope) (n : Name) : Name :=
  if trait.owns n then { n with resolved := some "self" } else n

/-- A name in a hint of a trait that means in a class with this parent, once the class has taken the
trait's place, what it would mean if it was written there, with `self` for the name of the trait. -/
def Scope.Portable (trait : Scope) (parent : Option String) (n : Name) : Prop :=
  Text.same n.full "parent" = true → trait.parent = none ∧ parent = none

section
variable {trait : Scope} {parent : Option String} {self : String}

theorem rebindAtom_self : rebindAtom trait.self self trait.self = self := by
  rw [rebindAtom, if_pos (Text.same_refl _)]

/- In the trait such a name is the trait, in whatever way it is written. -/
theorem Scope.Portable.atom_of_owns {n : Name} (h : trait.Portable parent n)
    (hown : trait.owns n = true) : rebindAtom trait.self self (trait.atom n) = self := by
  unfold Scope.atom
  split
  · exact rebindAtom_self
  · split
    · next hparent =>
      rw [(h hparent).1]
      exact rebindAtom_self
    · exact if_pos hown

theorem Scope.Portable.atom {n : Name} (h : trait.Portable parent n) :
    rebindAtom trait.self self (trait.atom n) = Scope.atom ⟨self, parent⟩ (trait.selfFor n) := by
  unfold Scope.selfFor
  by_cases hown : trait.owns n = true
  · rw [if_pos hown, h.atom_of_owns hown, Scope.atom, if_pos]
    exact Bool.or_eq_true_iff.mpr (.inl (Text.same_refl "self"))
  · rw [if_neg hown]
    unfold Scope.atom
    by_cases hrelative : (Text.same n.full "self" || Text.same n.full "static") = true
    · rw [if_pos hrelative, if_pos hrelative, rebindAtom_self]
    · rw [if_neg hrelative, if_neg hrelative]
      by_cases hparent : Text.same n.full "parent" = true
      · rw [if_pos hparent, if_pos hparent, (h hparent).1, (h hparent).2]
        exact rebindAtom_self
      · rw [if_neg hparent, if_neg hparent]
        exact if_neg hown

theorem hintNames_portable {ns : List Name} (h : ∀ n ∈ ns, trait.Portable parent n) :
    (ns.map trait.atom).map (rebindAtom trait.self self) =
      (ns.map trait.selfFor).map (Scope.atom ⟨self, parent⟩) := by
  rw [List.map_map, List.map_map]
  refine List.map_congr_left fun n hn => ?_
  rw [Function.comp_apply, Function.comp_apply, (h n hn).atom]

mutual

theorem hintAlternatives_portable (hnull : Text.same "null" trait.self = false) (h : TypeHint)
    (hn : ∀ n ∈ hintNames h, trait.Portable parent n) :
    (hintAlternatives trait h).map (List.map (rebindAtom trait.self self)) =
      hintAlternatives ⟨self, parent⟩ (mapNames trait.selfFor h) := by
  cases h with
  | named n => exact congrArg ([·]) (hintNames_portable hn)
  | intersection hs =>
    rw [mapNames, hintAlternatives, hintAlternatives, hintNamesList_mapNames]
    exact congrArg ([·]) (hintNames_portable hn)
  | nullable h =>
    have hkept : rebindAtom trait.self self "null" = "null" := by
      rw [rebindAtom, hnull, if_neg Bool.false_ne_true]
    rw [mapNames, hintAlternatives, hintAlternatives, List.map_append,
      hintAlternatives_portable hnull h hn]
    simp [hkept]
  | union hs => exact hintAlternativesList_portable hnull hs hn

theorem hintAlternativesList_portable (hnull : Text.same "null" trait.self = false)
    (hs : List TypeHint) (hn : ∀ n ∈ hintNamesList hs, trait.Portable parent n) :
    (hintAlternativesList trait hs).map (List.map (rebindAtom trait.self self)) =
      hintAlternativesList ⟨self, parent⟩ (mapNamesList trait.selfFor hs) := by
  cases hs with
  | nil => rfl
  | cons h hs =>
    obtain ⟨hfirst, hothers⟩ := List.forall_mem_append.mp hn
    rw [mapNamesList, hintAlternativesList, hintAlternativesList, List.map_append,
      hintAlternatives_portable hnull h hfirst, hintAlternativesList_portable hnull hs hothers]

end

/-- A hint of a trait that can be carried over to a class with this parent. The trait is not called
like the type of the null value. -/
def Scope.PortableHint (trait : Scope) (parent : Option String) (h : TypeHint) : Prop :=
  Text.same "null" trait.self = false ∧ ∀ n ∈ hintNames h, trait.Portable parent n

/-- The signature is the hint of a trait as a class has it that takes the trait's place. A hint that
does not name the trait is taken as it is. -/
def Scope.Hands (trait : Scope) (self : String) (sig : Signature) (h : TypeHint) : Prop :=
  ∀ parent, trait.PortableHint parent h →
    sig.SameAlternatives (ofHint ⟨self, parent⟩ (mapNames trait.selfFor h)) ∧
    ((∀ n ∈ hintNames h, trait.owns n = false) → sig.SameAlternatives (ofHint ⟨self, parent⟩ h))

theorem Scope.hands_rebind (h : TypeHint) :
    trait.Hands self ((ofHint trait h).rebind trait.self self) h := by
  intro parent hh
  have htaken := rebind_sameAlternatives trait.self self (hintAlternatives trait h)
  rw [hintAlternatives_portable hh.1 h hh.2] at htaken
  refine ⟨htaken, fun hforeign => ?_⟩
  have hkept : mapNames trait.selfFor h = h := by
    refine mapNames_eq_self h fun n hn => ?_
    rw [selfFor, hforeign n hn, if_neg Bool.false_ne_true]
  rw [hkept] at htaken
  exact htaken

end

end Signature

/-- The types of a method stand in a relation to the hints of a declaration, each to its own. -/
def MethodInfo.HasTypes (m : MethodInfo) (d : MethodDecl) (R : Signature → TypeHint → Prop) :
    Prop :=
  Option.Rel R m.returnType d.returnType ∧
    List.Forall₂ (fun p q => p.name = q.name ∧ Option.Rel R p.type q.hint) m.params d.params

theorem MethodInfo.hasTypes_adopt {scope : Signature.Scope} {file : Path} {d : MethodDecl}
    {owner : String} {R : Signature → TypeHint → Prop}
    (h : ∀ t, R ((Signature.ofHint scope t).rebind scope.self owner) t) :
    ((MethodInfo.ofDecl scope file d).adopt owner).HasTypes d R := by
  have hrel (hint : Option TypeHint) : Option.Rel R
      ((hint.map (Signature.ofHint scope)).map (·.rebind scope.self owner)) hint := by
    cases hint with
    | none => exact .none
    | some t => exact .some (h t)
  refine ⟨hrel d.returnType, ?_⟩
  change List.Forall₂ _ (((d.params.map _).map _)) d.params
  rw [List.map_map, List.forall₂_map_left_iff, List.forall₂_same]
  exact fun p _ => ⟨rfl, hrel p.hint⟩

namespace Index

theorem builtin_no_trait : ∀ b ∈ Builtin.classes, b.kind ≠ .traitType := by decide +kernel

/- Only files declare traits. -/
theorem exists_site_of_traitAt? {found : List (Path × Option ParsedFile)} {k : String}
    {t : ClassInfo} (h : (declaredIn found).traitAt? k = some t) :
    ∃ s ∈ sitesFound found, s.info = t := by
  obtain ⟨hfound, hkind⟩ := Option.filter_eq_some_iff.mp h
  rcases List.mem_append.mp (mem_of_mem_distinct (List.mem_of_find?_eq_some hfound)) with hb | hd
  · exact absurd (by simpa using hkind) (builtin_no_trait t hb)
  · rw [typesFound_eq_map_sites] at hd
    exact List.mem_map.mp hd

/-- Take a method that a class of the table has taken over. It belongs to the class, and a trait
that the class uses, itself or through traits, declares it in a file. Its types are as if the hints,
with `self` for the name of the trait, were written in a class of that name with any parent under
which they can be carried over: with the parent of the class, or with none, in which case `parent`
stands for the class. A hint that does not name the trait is taken as it is. -/
theorem copied_types (paths : List Path) (w : Workspace) :
    let built := ((build paths).run w).1
    let found := ((Workspace.parseAll paths).run w).1
    let declared := declaredIn found
    ∀ (k : Nat) (c : ClassInfo), declared.classes[k]? = some c →
      ∃ copies, built.classes[k]? = some { c with methods := c.methods ++ copies } ∧
      ∀ m ∈ copies, m.declaringClass = c.name ∧
        ∃ key, ∃ s ∈ sitesFound found, ∃ d ∈ s.type.methods,
          declared.Leads c.traits key ∧ declared.traitAt? key = some s.info ∧
          m.sourceOwner = s.type.fullName ∧ m.name = d.name ∧ m.lines = some d.span.lines ∧
          m.HasTypes d (Signature.Scope.Hands ⟨s.info.name, s.info.parent⟩ c.name) := by
  intro built found declared k c hc
  have hbuilt : built = declared.applyTraits := build_eq_applyTraits paths w
  refine ⟨declared.adopted c, ?_, fun m hm => ?_⟩
  · rw [hbuilt, applyTraits, List.getElem?_map, hc]
    rfl
  · rw [adopted_eq_firstOfNames] at hm
    obtain ⟨made, hmade, rfl⟩ := List.mem_map.mp hm
    rw [firstOfNames_eq_filter] at hmade
    obtain ⟨key, t, hleads, ht, hmethod⟩ :=
      mem_offered_iff.mp (mem_of_mem_distinct (List.mem_filter.mp hmade).1)
    obtain ⟨s, hs, rfl⟩ := exists_site_of_traitAt? ht
    obtain ⟨d, hd, rfl⟩ := List.mem_map.mp hmethod
    refine ⟨rfl, key, s, hs, d, hd, hleads, ht, rfl, rfl, rfl, ?_⟩
    exact MethodInfo.hasTypes_adopt Signature.Scope.hands_rebind

end Index

namespace Sample

/- What the method is written with, and what its result would be in a class with a parent. -/
theorem sharing_hints :
    ∀ s ∈ sitesFound ((Workspace.parseAll [⟨"a.php"⟩]).run (inMemory sharing)).1,
      ∀ d ∈ s.type.methods, d.name = "b" →
        d.returnType.map (fun h => (Signature.hintNames h).map (·.full)) = some ["parent"] ∧
        d.params.map (fun p => p.hint.map fun h => (Signature.hintNames h).map (·.full)) =
          [some ["self"]] ∧
        d.returnType.map (Signature.ofHint ⟨"D", some "P"⟩) = some ⟨[["P"]]⟩ := by
  decide +kernel

theorem sharing_adopted_D :
    sharingDeclared.adopted classD = [bodiless.adopt "D", relative.adopt "D"] := by
  rw [Index.adopted_eq_firstOfNames,
    ← (sharingDeclared.visits_iff_offered classD).mp sharing_visits]
  decide +kernel

theorem sharing_adopted_E : sharingDeclared.adopted classE =
    [(onLine 3 "B" "m").adopt "E", relative.adopt "E", (onLine 2 "A" "own").adopt "E"] := by
  rw [Index.adopted_eq_firstOfNames,
    ← (sharingDeclared.visits_iff_offered classE).mp sharing_visits_single]
  decide +kernel

theorem sharing_portable {hint : TypeHint} {word : String} (hword : word = "self" ∨ word = "parent")
    (h : (Signature.hintNames hint).map (·.full) = [word]) :
    Signature.Scope.PortableHint ⟨"B", none⟩ none hint ∧
      ∀ n ∈ Signature.hintNames hint, Signature.Scope.owns ⟨"B", none⟩ n = false := by
  refine ⟨⟨by decide, fun _ _ _ => ⟨rfl, rfl⟩⟩, fun n hn => ?_⟩
  have hfull : n.full ∈ [word] := h ▸ List.mem_map_of_mem hn
  rw [Signature.Scope.owns, List.mem_singleton.mp hfull]
  rcases hword with rfl | rfl <;> decide

end Sample

/- A class without a parent: `self` and `parent` are both the class. -/
theorem Index.copied_types_sample :
    ∃ result parameter : TypeHint,
      (Signature.hintNames result).map (·.full) = ["parent"] ∧
      (Signature.hintNames parameter).map (·.full) = ["self"] ∧
      Signature.Scope.PortableHint ⟨"B", none⟩ none result ∧
      Signature.Scope.PortableHint ⟨"B", none⟩ none parameter ∧
      (Sample.relative.adopt "E").returnType = some ⟨[["E"]]⟩ ∧
      Signature.SameAlternatives ⟨[["E"]]⟩ (Signature.ofHint ⟨"E", none⟩ result) ∧
      (Sample.relative.adopt "E").params = [⟨"x", some ⟨[["E"]]⟩⟩] ∧
      Signature.SameAlternatives ⟨[["E"]]⟩ (Signature.ofHint ⟨"E", none⟩ parameter) := by
  have htypes := copied_types [⟨"a.php"⟩] (inMemory Sample.sharing)
  dsimp only at htypes
  rw [build_eq_applyTraits, Sample.sharing_declared] at htypes
  have hmem : Sample.classE ∈ Sample.sharingDeclared.classes :=
    List.mem_append_right _ (by simp [Sample.sharingTypes])
  obtain ⟨k, hk⟩ := List.mem_iff_getElem?.mp hmem
  obtain ⟨copies, hcopies, hall⟩ := htypes k _ hk
  have hadopted : copies = Sample.sharingDeclared.adopted Sample.classE := by
    rw [applyTraits, List.getElem?_map, hk] at hcopies
    exact (congrArg ClassInfo.methods (Option.some.inj hcopies)).symm
  rw [hadopted, Sample.sharing_adopted_E] at hall
  obtain ⟨_, key, s, hs, d, hd, _, htrait, howner, hname, _, hresult, hparams⟩ :=
    hall (Sample.relative.adopt "E") (by simp)
  have hinfo : s.info = Sample.traitB := by
    obtain ⟨hfound, _⟩ := Option.filter_eq_some_iff.mp htrait
    have hkey : key = classKey "B" := by
      rw [← findClass?_key hfound, ClassInfo.key_eq]
      exact congrArg classKey howner.symm
    rw [hkey] at htrait
    exact Option.some.inj (htrait.symm.trans Sample.sharing_B)
  have hreturn : (Sample.relative.adopt "E").returnType = some ⟨[["E"]]⟩ := by decide +kernel
  have hparameters : (Sample.relative.adopt "E").params = [⟨"x", some ⟨[["E"]]⟩⟩] := by
    decide +kernel
  obtain ⟨hparent, hself, _⟩ := Sample.sharing_hints s hs d hd hname.symm
  rw [hinfo, hreturn] at hresult
  rw [hinfo, hparameters] at hparams
  obtain ⟨result, hd, hparent⟩ := Option.map_eq_some_iff.mp hparent
  rw [hd] at hresult
  cases hresult with
  | some hresult =>
  obtain ⟨p, ps, hp, hself, _⟩ := List.map_eq_cons_iff.mp hself
  obtain ⟨parameter, hhint, hself⟩ := Option.map_eq_some_iff.mp hself
  rw [hp] at hparams
  have hparam := (List.forall₂_cons.mp hparams).1.2
  rw [hhint] at hparam
  cases hparam with
  | some hparam =>
  obtain ⟨hportable, hforeign⟩ := Sample.sharing_portable (.inr rfl) hparent
  obtain ⟨hportable', hforeign'⟩ := Sample.sharing_portable (.inl rfl) hself
  exact ⟨result, parameter, hparent, hself, hportable, hportable', hreturn,
    (hresult none hportable).2 hforeign, hparameters, (hparam none hportable').2 hforeign'⟩

/- A class with a parent: in a trait `parent` is the class nevertheless. -/
theorem Index.parent_in_trait_stands_for_class :
    let found := ((Workspace.parseAll [⟨"a.php"⟩]).run (inMemory Sample.sharing)).1
    (∃ s ∈ sitesFound found, ∃ d ∈ s.type.methods, s.type.fullName = "B" ∧ d.name = "b" ∧
      d.returnType.map (Signature.ofHint ⟨"D", some "P"⟩) = some ⟨[["P"]]⟩) ∧
    ((build [⟨"a.php"⟩]).run (inMemory Sample.sharing)).1.get? "D" = some { Sample.classD with
      methods := [Sample.onLine 5 "D" "own", Sample.bodiless.adopt "D",
        Sample.relative.adopt "D"] } ∧
    Sample.classD.parent = some "P" ∧ Sample.relative.sourceOwner = "B" ∧
    (Sample.relative.adopt "D").returnType = some ⟨[["D"]]⟩ ∧
    ¬ Signature.SameAlternatives ⟨[["D"]]⟩ ⟨[["P"]]⟩ := by
  intro found
  refine ⟨?_, ?_, rfl, rfl, by decide +kernel, ?_⟩
  · have hB : (declaredIn found).traitAt? (classKey "B") = some Sample.traitB := by
      rw [Sample.sharing_declared]
      exact Sample.sharing_B
    obtain ⟨s, hs, hinfo⟩ := exists_site_of_traitAt? hB
    have hmethod : Sample.relative ∈ s.info.methods := by
      rw [hinfo]
      simp [Sample.traitB, Sample.sharingType]
    obtain ⟨d, hd, hmade⟩ := List.mem_map.mp hmethod
    have hname : d.name = "b" := congrArg MethodInfo.name hmade
    obtain ⟨_, _, hresult⟩ := Sample.sharing_hints s hs d hd hname
    exact ⟨s, hs, d, hd, congrArg ClassInfo.name hinfo, hname, hresult⟩
  · rw [build_eq_applyTraits, Sample.sharing_declared, get?_applyTraits, get?]
    have hD : findClass? Sample.sharingDeclared.classes (classKey "D") = some Sample.classD :=
      Sample.sharing_find (c := Sample.classD) (by simp [Sample.sharingTypes])
    rw [hD, Option.map_some, Sample.sharing_adopted_D]
    rfl
  · rintro ⟨hsame, _⟩
    revert hsame
    decide

end ContractAudit
