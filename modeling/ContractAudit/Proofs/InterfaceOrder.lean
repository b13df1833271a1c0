import ContractAudit.Proofs.Ancestry
import Mathlib.Data.List.Flatten

/-! The list of the interfaces of a class. Main statement: it names those of the class and of the
classes above it, each once and as it is declared, and if no class lies above itself, in the order
in which the plain recursion comes to them. -/
namespace ContractAudit

namespace Index
variable {i : Index} {name n : String} {e : Edge} {c : ClassInfo}

theorem mem_edgesOf : e ∈ edgesOf c ↔
    (∃ m ∈ c.interfaces, e = .interface m) ∨ ∃ p, c.parent = some p ∧ e = .parent p := by
  simp only [edgesOf, List.mem_append, List.mem_map, Option.mem_toList]
  grind

theorem findClass?_of_dropClass {classes : List ClassInfo} {key k : String}
    (h : findClass? (dropClass classes key) k = some c) : findClass? classes k = some c := by
  rw [findClass?_dropClass] at h
  split at h
  · cases h
  · exact h

/- A class that is come to is left out from then on, and its steps are taken once. -/
theorem edges_dropClass {classes : List ClassInfo} {key : String}
    (h : findClass? classes key = some c) :
    (edgesOf c).length + ((dropClass classes key).flatMap edgesOf).length ≤
      (classes.flatMap edgesOf).length := by
  induction classes with
  | nil => cases h
  | cons d ds ih =>
    have hdrop : ((dropClass ds key).flatMap edgesOf).length ≤ (ds.flatMap edgesOf).length :=
      (List.filter_sublist.flatMap edgesOf).length_le
    rw [findClass?, List.find?_cons] at h
    cases hkey : d.key == key with
    | true =>
      rw [hkey] at h
      cases h
      have hskip : dropClass (c :: ds) key = dropClass ds key := by simp [dropClass, bne, hkey]
      simpa [hskip] using hdrop
    | false =>
      rw [hkey] at h
      have hkeep : dropClass (d :: ds) key = d :: dropClass ds key := by simp [dropClass, bne, hkey]
      have := ih h
      simp only [hkeep, List.flatMap_cons, List.length_append]
      omega

theorem climb_length (unseen : List ClassInfo) (pending : List Edge) :
    (climb unseen pending).length ≤ pending.length + (unseen.flatMap edgesOf).length := by
  fun_induction climb unseen pending with
  | case1 => simp
  | case2 unseen e pending _ ih =>
    simp only [List.length_cons]
    omega
  | case3 unseen e pending c hsome ih =>
    have hedges := edges_dropClass hsome
    simp only [List.length_cons, List.length_append] at ih ⊢
    omega

/- No step is taken twice, whether or not classes lie above themselves. -/
theorem ascent_length (i : Index) (name : String) :
    (i.ascent name).length ≤ (i.classes.flatMap edgesOf).length := by
  unfold ascent
  cases hname : i.get? name with
  | none => simp
  | some c =>
    have hkey : c.key = classKey name := findClass?_key hname
    refine Nat.le_trans (climb_length _ _) ?_
    rw [hkey]
    exact edges_dropClass hname

theorem get?_declaredName : i.get? (i.declaredName n) = i.get? n := by
  cases hn : i.get? n with
  | none => rw [declaredName, hn]; exact hn
  | some c =>
    have hname : i.declaredName n = c.name := by rw [declaredName, hn]; rfl
    rw [hname, get?, classKey_of_get? hn]
    exact hn

theorem classKey_declaredName : classKey (i.declaredName n) = classKey n := by
  unfold declaredName
  cases hn : i.get? n with
  | none => rfl
  | some c => exact classKey_of_get? hn

theorem declaredName_declaredName : i.declaredName (i.declaredName n) = i.declaredName n := by
  have h : i.declaredName (i.declaredName n) =
      ((i.get? n).map (·.name)).getD (i.declaredName n) := by rw [declaredName, get?_declaredName]
  rw [h]
  unfold declaredName
  cases i.get? n <;> rfl

/-- A class at or above this one names the interface. -/
theorem exists_mem_interfaces_iff {x : String} :
    (∃ n ∈ i.interfaces name, classKey n = classKey x) ↔
      ∃ k c, i.Above (classKey name) k ∧ findClass? i.classes k = some c ∧
        ∃ m ∈ c.interfaces, classKey m = classKey x := by
  constructor
  · rintro ⟨n, hn, hx⟩
    obtain ⟨m, hm, rfl⟩ := mem_ascent_of_mem_interfaces hn
    obtain ⟨k, c, habove, hc, he⟩ := mem_ascent.mp hm
    rw [classKey_declaredName] at hx
    rcases mem_edgesOf.mp he with ⟨m', hm', heq⟩ | ⟨_, _, heq⟩
    · cases heq
      exact ⟨k, c, habove, hc, m, hm', hx⟩
    · cases heq
  · rintro ⟨k, c, habove, hc, m, hm, hx⟩
    have he : Edge.interface m ∈ i.ascent name :=
      mem_ascent.mpr ⟨k, c, habove, hc, mem_edgesOf.mpr (Or.inl ⟨m, hm, rfl⟩)⟩
    obtain ⟨n, hn, hlower⟩ := exists_mem_interfaces he
    exact ⟨n, hn, by rw [classKey_congr hlower, classKey_declaredName, hx]⟩

theorem isSubtype_iff_interfaces {x : String} : i.isSubtype name x = true ↔
    classKey name = classKey x ∨ (∃ n ∈ i.interfaces name, classKey n = classKey x) ∨
      ∃ k c, i.Above (classKey name) k ∧ findClass? i.classes k = some c ∧
        ∃ p, c.parent = some p ∧ classKey p = classKey x := by
  rw [isSubtype, Bool.or_eq_true, beq_iff_eq, List.any_eq_true, exists_mem_interfaces_iff]
  refine or_congr_right ?_
  constructor
  · rintro ⟨e, he, hx⟩
    obtain ⟨k, c, habove, hc, he⟩ := mem_ascent.mp he
    rcases mem_edgesOf.mp he with ⟨m, hm, rfl⟩ | ⟨p, hp, rfl⟩
    · exact Or.inl ⟨k, c, habove, hc, m, hm, beq_iff_eq.mp hx⟩
    · exact Or.inr ⟨k, c, habove, hc, p, hp, beq_iff_eq.mp hx⟩
  · rintro (⟨k, c, habove, hc, m, hm, hx⟩ | ⟨k, c, habove, hc, p, hp, hx⟩)
    · exact ⟨.interface m, mem_ascent.mpr ⟨k, c, habove, hc, mem_edgesOf.mpr (Or.inl ⟨m, hm, rfl⟩)⟩,
        beq_iff_eq.mpr hx⟩
    · exact ⟨.parent p, mem_ascent.mpr ⟨k, c, habove, hc, mem_edgesOf.mpr (Or.inr ⟨p, hp, rfl⟩)⟩,
        beq_iff_eq.mpr hx⟩

def Acyclic (i : Index) : Prop := ∀ k, ¬ Relation.TransGen i.Up k k

theorem acyclic_of_rank (rank : String → Nat)
    (h : ∀ c ∈ i.classes, ∀ e ∈ edgesOf c, rank c.key < rank (classKey e.target)) : i.Acyclic := by
  have hup {k k' : String} : i.Up k k' → rank k < rank k' := by
    rintro ⟨c, hc, e, he, rfl⟩
    rw [← findClass?_key hc]
    exact h c (List.mem_of_find?_eq_some hc) e he
  have hpath {k k' : String} (hk : Relation.TransGen i.Up k k') : rank k < rank k' := by
    induction hk with
    | single h => exact hup h
    | tail _ h ih => exact Nat.lt_trans ih (hup h)
  exact fun k hk => Nat.lt_irrefl _ (hpath hk)

/- The classes above the target of a step do not have the class that the step goes up from. -/
theorem Acyclic.ne_of_above (h : i.Acyclic) (hc : i.get? n = some c) (he : e ∈ edgesOf c)
    {k : String} (hk : i.Above (classKey e.target) k) : k ≠ classKey n := by
  rintro rfl
  exact h _ (.head' ⟨c, hc, e, he, rfl⟩ hk)

/-- What holds of a class if it holds of those that its steps lead to holds of every class. -/
theorem Acyclic.induction (h : i.Acyclic) {P : String → Prop}
    (step : ∀ n, (∀ c, i.get? n = some c → ∀ e ∈ edgesOf c, P e.target) → P n) (n : String) :
    P n := by
  -- the classes that may still be come to; each step up leaves one behind
  suffices hall : ∀ (unseen : List ClassInfo) (n : String), (∀ k c, i.Above (classKey n) k →
      findClass? i.classes k = some c → ∃ d, findClass? unseen k = some d) → P n from
    hall i.classes n fun _ c _ hc => ⟨c, hc⟩
  intro unseen
  induction hlen : unseen.length using Nat.strongRecOn generalizing unseen with
  | _ len ih =>
    intro n hunseen
    refine step n fun c hc e he => ?_
    obtain ⟨d, hd⟩ := hunseen _ c .refl hc
    refine ih _ (hlen ▸ dropClass_length_lt hd) _ rfl e.target fun k c' hk hc' => ?_
    rw [findClass?_dropClass, if_neg (h.ne_of_above hc he hk)]
    exact hunseen k c' (.head ⟨c, hc, e, he, rfl⟩ hk) hc'

/-- A solution of the plain recursion: each own interface with what it expands to, then what the
parent expands to. -/
structure Expansion (i : Index) (expand : String → List String) : Prop where
  undeclared : ∀ n, i.get? n = none → expand n = []
  declared : ∀ n c, i.get? n = some c → expand n =
    c.interfaces.flatMap (fun m => i.declaredName m :: expand m) ++ c.parent.toList.flatMap expand

/-- The interfaces that steps lead to, as they are declared. -/
def listed (i : Index) (es : List Edge) : List String :=
  (es.filterMap Edge.interface?).map i.declaredName

theorem listed_cons (e : Edge) (es : List Edge) :
    i.listed (e :: es) = i.listed [e] ++ i.listed es := by
  cases e <;> rfl

/-- What a step adds. -/
def contributed (i : Index) (expand : String → List String) (e : Edge) : List String :=
  i.listed [e] ++ expand e.target

section
variable {expand : String → List String}

theorem flatMap_contributed : (edgesOf c).flatMap (i.contributed expand) =
    c.interfaces.flatMap (fun m => i.declaredName m :: expand m) ++
      c.parent.toList.flatMap expand := by
  rw [edgesOf, List.flatMap_append, List.flatMap_map, List.flatMap_map]
  rfl

theorem Expansion.eq_flatMap (h : i.Expansion expand) (hc : i.get? n = some c) :
    expand n = (edgesOf c).flatMap (i.contributed expand) := by
  rw [h.declared n c hc, flatMap_contributed]

theorem Expansion.congr (h : i.Expansion expand) {m : String} (hkey : classKey n = classKey m) :
    expand n = expand m := by
  have hget : i.get? n = i.get? m := by rw [get?, get?, hkey]
  cases hm : i.get? m with
  | none => rw [h.undeclared n (hget.trans hm), h.undeclared m hm]
  | some c => rw [h.eq_flatMap (hget.trans hm), h.eq_flatMap hm]

theorem Expansion.unique (hi : i.Acyclic) (h : i.Expansion expand)
    {expand' : String → List String} (h' : i.Expansion expand') : expand = expand' := by
  funext n
  induction n using hi.induction with
  | step n ih =>
    cases hn : i.get? n with
    | none => rw [h.undeclared n hn, h'.undeclared n hn]
    | some c =>
      rw [h.eq_flatMap hn, h'.eq_flatMap hn]
      refine List.flatMap_congr fun e he => ?_
      rw [contributed, contributed, ih c hn e he]

end

/-- The plain recursion, cut where a class would be expanded inside itself. -/
def expandFrom (i : Index) (unseen : List ClassInfo) (name : String) : List String :=
  match _found : findClass? unseen (classKey name) with
  | none => []
  | some c =>
    c.interfaces.flatMap (fun m =>
      i.declaredName m :: expandFrom i (dropClass unseen (classKey name)) m) ++
    c.parent.toList.flatMap (expandFrom i (dropClass unseen (classKey name)))
termination_by unseen.length
decreasing_by all_goals exact dropClass_length_lt _found

theorem expandFrom_of_none {unseen : List ClassInfo}
    (h : findClass? unseen (classKey name) = none) : i.expandFrom unseen name = [] := by
  rw [expandFrom]
  split
  · rfl
  · next h' => cases h.symm.trans h'

theorem expandFrom_of_some {unseen : List ClassInfo}
    (h : findClass? unseen (classKey name) = some c) : i.expandFrom unseen name =
      (edgesOf c).flatMap
        (i.contributed (i.expandFrom (dropClass unseen (classKey name)))) := by
  rw [expandFrom]
  split
  · next h' => cases h.symm.trans h'
  · next h' =>
    cases h.symm.trans h'
    exact flatMap_contributed.symm

/- Only the classes above a name matter to what it expands to. -/
theorem expandFrom_eq (hi : i.Acyclic) (unseen : List ClassInfo)
    (h : ∀ k, i.Above (classKey name) k → findClass? unseen k = findClass? i.classes k) :
    i.expandFrom unseen name = i.expandFrom i.classes name := by
  induction name using hi.induction generalizing unseen with
  | step n ih =>
    cases hn : i.get? n with
    | none => rw [expandFrom_of_none ((h _ .refl).trans hn), expandFrom_of_none hn]
    | some c =>
      rw [expandFrom_of_some ((h _ .refl).trans hn), expandFrom_of_some hn]
      refine List.flatMap_congr fun e he => ?_
      have hdrop (classes : List ClassInfo)
          (hall : ∀ k, i.Above (classKey n) k → findClass? classes k = findClass? i.classes k) :
          i.expandFrom (dropClass classes (classKey n)) e.target =
            i.expandFrom i.classes e.target := by
        refine ih c hn e he _ fun k hk => ?_
        rw [findClass?_dropClass, if_neg (hi.ne_of_above hn he hk)]
        exact hall k (.head ⟨c, hn, e, he, rfl⟩ hk)
      rw [contributed, contributed, hdrop unseen h, hdrop i.classes fun _ _ => rfl]

theorem expandFrom_expansion (hi : i.Acyclic) : i.Expansion (i.expandFrom i.classes) where
  undeclared n hn := expandFrom_of_none hn
  declared n c hn := by
    rw [expandFrom_of_some hn, ← flatMap_contributed]
    refine List.flatMap_congr fun e he => ?_
    rw [contributed, contributed]
    congr 1
    refine expandFrom_eq hi _ fun k hk => ?_
    rw [findClass?_dropClass, if_neg (hi.ne_of_above hn he hk)]

/-- Every name is among those listed before, up to letter case. -/
def Covers (out names : List String) : Prop := ∀ x ∈ names, ∃ y ∈ out, Text.same y x = true

namespace Covers
variable {out out' names names' : List String}

theorem of_subset (h : names ⊆ out) : Covers out names := fun x hx => ⟨x, h hx, Text.same_refl x⟩

theorem trans (h : Covers out' out) (h' : Covers out names) : Covers out' names := by
  intro x hx
  obtain ⟨y, hy, hyx⟩ := h' x hx
  obtain ⟨z, hz, hzy⟩ := h y hy
  exact ⟨z, hz, Text.same_trans hzy hyx⟩

theorem later (h : Covers out names) (more : List String) : Covers (out ++ more) names :=
  (of_subset (List.subset_append_left _ _)).trans h

theorem append (h : Covers out names) (h' : Covers out names') : Covers out (names ++ names') :=
  fun x hx => (List.mem_append.mp hx).elim (h x) (h' x)

theorem distinct_append (h : Covers out names) (more : List String) :
    distinct Text.same (out ++ (names ++ more)) = distinct Text.same (out ++ more) :=
  distinct_append_covered Text.same Text.same_trans h more

end Covers

section
variable {expand : String → List String} {unseen : List ClassInfo} {out out' : List String}
  {es fs : List Edge}

/-- When the plain recursion comes to a step, what the classes above it that are not unseen expand
to is listed already. -/
def Ready (i : Index) (expand : String → List String) (unseen : List ClassInfo) :
    List String → List Edge → Prop
  | _, [] => True
  | out, e :: es => (∀ n, i.Above (classKey e.target) (classKey n) →
      findClass? unseen (classKey n) = none → Covers out (expand n)) ∧
      Ready i expand unseen (out ++ i.contributed expand e) es

namespace Ready

theorem mono (hout : Covers out' out) (h : Ready i expand unseen out es) :
    Ready i expand unseen out' es := by
  induction es generalizing out out' with
  | nil => trivial
  | cons e es ih =>
    refine ⟨fun n hn hnone => hout.trans (h.1 n hn hnone), ih ?_ h.2⟩
    exact (hout.later _).append (.of_subset (List.subset_append_right _ _))

theorem of_forall (h : ∀ e ∈ es, ∀ n, i.Above (classKey e.target) (classKey n) →
    findClass? unseen (classKey n) = none → Covers out (expand n)) :
    Ready i expand unseen out es := by
  induction es with
  | nil => trivial
  | cons e es ih =>
    obtain ⟨he, hes⟩ := List.forall_mem_cons.mp h
    exact ⟨he, (ih hes).mono (.of_subset (List.subset_append_left _ _))⟩

theorem append (h : Ready i expand unseen out es)
    (h' : Ready i expand unseen (out ++ es.flatMap (i.contributed expand)) fs) :
    Ready i expand unseen out (es ++ fs) := by
  induction es generalizing out with
  | nil => simpa using h'
  | cons e es ih =>
    refine ⟨h.1, ih h.2 ?_⟩
    simpa using h'

/- A class may be left behind once what it expands to is listed. -/
theorem drop (hexp : i.Expansion expand) (hn : Covers out (expand n))
    (h : Ready i expand unseen out es) :
    Ready i expand (dropClass unseen (classKey n)) out es := by
  induction es generalizing out with
  | nil => trivial
  | cons e es ih =>
    refine ⟨fun m hm hnone => ?_, ih (hn.later _) h.2⟩
    rw [findClass?_dropClass] at hnone
    split at hnone
    · next hkey =>
      rw [hexp.congr hkey]
      exact hn
    · exact h.1 m hm hnone

/- Classes above the steps of a class do not have that class, so it may be left behind before what
it expands to is listed. -/
theorem edges (hi : i.Acyclic) (hc : i.get? n = some c)
    (h : ∀ m, i.Above (classKey n) (classKey m) → findClass? unseen (classKey m) = none →
      Covers out (expand m)) :
    Ready i expand (dropClass unseen (classKey n)) out (edgesOf c) := by
  refine .of_forall fun e he m hm hnone => ?_
  rw [findClass?_dropClass, if_neg (hi.ne_of_above hc he hm)] at hnone
  exact h m (.head ⟨c, hc, e, he, rfl⟩ hm) hnone

end Ready

/-- Steps that are taken list, of names that are equal up to letter case, the same first ones as the
plain recursion. -/
theorem distinct_climb (hi : i.Acyclic) (hexp : i.Expansion expand) (unseen : List ClassInfo)
    (pending : List Edge)
    (hunseen : ∀ k c, findClass? unseen k = some c → findClass? i.classes k = some c)
    (h : Ready i expand unseen out pending) :
    distinct Text.same (out ++ i.listed (climb unseen pending)) =
      distinct Text.same (out ++ pending.flatMap (i.contributed expand)) := by
  fun_induction climb unseen pending generalizing out with
  | case1 => rfl
  | case2 unseen e pending hnone ih =>
    have hcovered := (h.1 e.target .refl hnone).later (i.listed [e])
    have hready : Ready i expand unseen (out ++ i.listed [e]) pending := by
      refine h.2.mono ?_
      rw [contributed, ← List.append_assoc]
      exact (Covers.of_subset (List.Subset.refl _)).append hcovered
    calc distinct Text.same (out ++ i.listed (e :: climb unseen pending))
      _ = distinct Text.same (out ++ i.listed [e] ++ pending.flatMap (i.contributed expand)) := by
        rw [listed_cons, ← List.append_assoc, ih hunseen hready]
      _ = distinct Text.same (out ++ i.listed [e] ++
          (expand e.target ++ pending.flatMap (i.contributed expand))) :=
        (hcovered.distinct_append _).symm
      _ = distinct Text.same (out ++ (e :: pending).flatMap (i.contributed expand)) := by
        simp only [List.flatMap_cons, contributed, List.append_assoc]
  | case3 unseen e pending c hsome ih =>
    have hc : i.get? e.target = some c := hunseen _ _ hsome
    have hedges := hexp.eq_flatMap hc
    have hready : Ready i expand (dropClass unseen (classKey e.target)) (out ++ i.listed [e])
        (edgesOf c ++ pending) := by
      refine .append (.edges hi hc fun m hm hnone => (h.1 m hm hnone).later _) ?_
      rw [← hedges, List.append_assoc]
      exact .drop hexp (.of_subset fun x hx => by simp [hx]) h.2
    have hless (k : String) (d : ClassInfo)
        (hd : findClass? (dropClass unseen (classKey e.target)) k = some d) :
        findClass? i.classes k = some d := hunseen k d (findClass?_of_dropClass hd)
    rw [listed_cons, ← List.append_assoc, ih hless hready, List.flatMap_append, ← hedges]
    simp only [List.flatMap_cons, contributed, List.append_assoc]

theorem interfaces_eq_distinct (hi : i.Acyclic) (hexp : i.Expansion expand) (name : String) :
    i.interfaces name = distinct Text.same (expand name) := by
  rw [interfaces, ascent]
  cases hname : i.get? name with
  | none => rw [hexp.undeclared name hname]; rfl
  | some c =>
    have hkey : c.key = classKey name := findClass?_key hname
    have hready : Ready i expand (dropClass i.classes (classKey name)) [] (edgesOf c) := by
      refine .edges hi hname fun m _ hnone => ?_
      rw [hexp.undeclared m hnone]
      exact .of_subset (List.Subset.refl _)
    have hclimb := distinct_climb hi hexp _ (edgesOf c) (fun _ _ => findClass?_of_dropClass) hready
    rw [← hkey] at hclimb
    rw [hexp.eq_flatMap hname]
    exact hclimb

end

theorem map_declaredName_interfaces :
    (i.interfaces name).map i.declaredName = i.interfaces name := by
  have hdeclared : ∀ n ∈ i.interfaces name, i.declaredName n = id n := by
    intro n hn
    obtain ⟨m, _, rfl⟩ := mem_ascent_of_mem_interfaces hn
    exact declaredName_declaredName
  rw [List.map_congr_left hdeclared, List.map_id]

/-- The interfaces of a class are listed once each, as they are declared, and are those of the class
and of the classes above it; these and the parents are what it may stand in for. No step is taken
twice, and where no class lies above itself the order is that of the plain recursion. -/
theorem interfaces_exact (i : Index) (name : String) :
    (i.interfaces name).Pairwise (fun a b => Text.same a b = false) ∧
    (i.interfaces name).map i.declaredName = i.interfaces name ∧
    (∀ x, (∃ n ∈ i.interfaces name, classKey n = classKey x) ↔
      ∃ k c, i.Above (classKey name) k ∧ findClass? i.classes k = some c ∧
        ∃ m ∈ c.interfaces, classKey m = classKey x) ∧
    (∀ x, i.isSubtype name x = true ↔
      classKey name = classKey x ∨ (∃ n ∈ i.interfaces name, classKey n = classKey x) ∨
        ∃ k c, i.Above (classKey name) k ∧ findClass? i.classes k = some c ∧
          ∃ p, c.parent = some p ∧ classKey p = classKey x) ∧
    (i.ascent name).length ≤ (i.classes.flatMap edgesOf).length ∧
    (i.Acyclic → (∃! expand, i.Expansion expand) ∧
      ∀ expand, i.Expansion expand → i.interfaces name = distinct Text.same (expand name)) := by
  refine ⟨distinct_pairwise _ _, map_declaredName_interfaces, fun _ => exists_mem_interfaces_iff,
    fun _ => isSubtype_iff_interfaces, i.ascent_length name, fun hi => ⟨?_, fun _ hexp => ?_⟩⟩
  · exact ⟨_, expandFrom_expansion hi, fun _ hexp => hexp.unique hi (expandFrom_expansion hi)⟩
  · exact interfaces_eq_distinct hi hexp name

namespace Sample

/-- A class that comes to one interface in three ways and by two spellings. -/
def diamond : Index :=
  ⟨[Builtin.concrete "D" (some "B") ["I"], Builtin.concrete "B" none ["J", "i"],
    Builtin.interface "J" ["i", "Missing"] [], Builtin.interface "I" [] []], []⟩

theorem diamond_acyclic : diamond.Acyclic :=
  acyclic_of_rank (["d", "b", "j"].idxOf ·) (by decide +kernel)

end Sample

theorem interfaces_exact_diamond :
    Sample.diamond.Acyclic ∧ Sample.diamond.interfaces "d" = ["I", "J", "Missing"] := by
  obtain ⟨_, _, _, _, _, hordered⟩ := interfaces_exact Sample.diamond "d"
  obtain ⟨⟨expand, hexp, _⟩, hlist⟩ := hordered Sample.diamond_acyclic
  have hdeclared : ["I", "i", "J", "Missing"].map Sample.diamond.declaredName =
      ["I", "I", "J", "Missing"] := by decide +kernel
  simp only [List.map_cons, List.map_nil, List.cons.injEq, and_true] at hdeclared
  have hI : expand "I" = [] := hexp.declared _ (Builtin.interface "I" [] []) (by decide +kernel)
  have hi : expand "i" = [] := hexp.declared _ (Builtin.interface "I" [] []) (by decide +kernel)
  have hmissing : expand "Missing" = [] := hexp.undeclared _ (by decide +kernel)
  have hJ : expand "J" = ["I", "Missing"] := by
    rw [hexp.declared _ (Builtin.interface "J" ["i", "Missing"] []) (by decide +kernel)]
    simp [Builtin.interface, hdeclared, hi, hmissing]
  have hB : expand "B" = ["J", "I", "Missing", "I"] := by
    rw [hexp.declared _ (Builtin.concrete "B" none ["J", "i"]) (by decide +kernel)]
    simp [Builtin.concrete, hdeclared, hJ, hi]
  have hD : expand "d" = ["I", "J", "I", "Missing", "I"] := by
    rw [hexp.declared _ (Builtin.concrete "D" (some "B") ["I"]) (by decide +kernel)]
    simp [Builtin.concrete, hdeclared, hI, hB]
  refine ⟨Sample.diamond_acyclic, (hlist expand hexp).trans ?_⟩
  rw [hD]
  decide +kernel

end Index

end ContractAudit
