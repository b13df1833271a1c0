import ContractAudit.Proofs.FileOrder
import ContractAudit.Proofs.FirstDeclared
import ContractAudit.Proofs.InterfaceOrder

/-! The methods that classes take from traits. Main statement: after its own methods a class has the
first method of each further name that its traits offer, a trait offering its methods and then those
of the traits it uses, all as declared. That a trait is gone through only once makes the recursion
end, and it changes nothing if no trait leads back to itself. -/
namespace ContractAudit

open Source

/-- The methods whose name is not taken, neither beforehand nor by one that comes earlier. -/
def firstOfNames (taken : List MethodInfo) : List MethodInfo → List MethodInfo
  | [] => []
  | m :: ms =>
    if taken.any (Text.same ·.name m.name) then firstOfNames taken ms
    else m :: firstOfNames (m :: taken) ms

def MethodInfo.sameName (m n : MethodInfo) : Bool := Text.same m.name n.name

theorem sameName_refl (m : MethodInfo) : m.sameName m = true := Text.same_refl m.name

theorem sameName_trans {a b c : MethodInfo} (h : a.sameName b = true)
    (h' : b.sameName c = true) : a.sameName c = true := Text.same_trans h h'

theorem firstOfNames_eq_filter (taken ms : List MethodInfo) : firstOfNames taken ms =
    (distinct MethodInfo.sameName ms).filter fun m => !taken.any (·.sameName m) := by
  induction ms generalizing taken with
  | nil => rfl
  | cons m ms ih =>
    rw [firstOfNames, distinct, List.filter_cons, List.filter_filter]
    change (if taken.any (·.sameName m) = true then _ else _) = _
    cases htaken : taken.any (·.sameName m) with
    | true =>
      -- what has the name of `m` has a name that is taken
      rw [if_pos rfl, ih taken]
      refine List.filter_congr fun n _ => ?_
      obtain ⟨a, ha, ham⟩ := List.any_eq_true.mp htaken
      cases hmn : m.sameName n with
      | false => simp
      | true =>
        have hany : taken.any (·.sameName n) = true :=
          List.any_eq_true.mpr ⟨a, ha, sameName_trans ham hmn⟩
        simp [hany]
    | false =>
      rw [if_neg Bool.false_ne_true, ih (m :: taken)]
      refine congrArg (m :: ·) (List.filter_congr fun n _ => ?_)
      rw [List.any_cons, Bool.not_or, Bool.and_comm]

namespace Index

/-- The trait with this key. -/
def traitAt? (i : Index) (key : String) : Option ClassInfo :=
  (findClass? i.classes key).filter (·.kind = .traitType)

/-- What the traits of these names bring in turn: each its methods, then those of the traits that it
uses. Nothing is brought if the uses have no end. -/
inductive Expands (i : Index) : List String → List MethodInfo → Prop
  | nil : Expands i [] []
  | other {n ns ms} : i.traitAt? (classKey n) = none → Expands i ns ms → Expands i (n :: ns) ms
  | trait {n ns t nested ms} : i.traitAt? (classKey n) = some t → Expands i t.traits nested →
      Expands i ns ms → Expands i (n :: ns) (t.methods ++ nested ++ ms)

/-- The same recursion with the keys that were come to: those before it, and those after it. A name
whose key was come to brings nothing. -/
inductive Visits (i : Index) : List String → List String → List MethodInfo → List String → Prop
  | nil {seen} : Visits i seen [] [] seen
  | again {seen n ns ms seen'} : classKey n ∈ seen → Visits i seen ns ms seen' →
      Visits i seen (n :: ns) ms seen'
  | other {seen n ns ms seen'} : classKey n ∉ seen → i.traitAt? (classKey n) = none →
      Visits i (classKey n :: seen) ns ms seen' → Visits i seen (n :: ns) ms seen'
  | trait {seen n ns t nested between ms seen'} : classKey n ∉ seen →
      i.traitAt? (classKey n) = some t → Visits i (classKey n :: seen) t.traits nested between →
      Visits i between ns ms seen' → Visits i seen (n :: ns) (t.methods ++ nested ++ ms) seen'

section
variable {i : Index} {n : String} {ns seen seen' : List String} {t : ClassInfo}
  {ms ms' nested : List MethodInfo} {k : String}

theorem Expands.unique (h : i.Expands ns ms) (h' : i.Expands ns ms') : ms = ms' := by
  induction h generalizing ms' with
  | nil =>
    cases h'
    rfl
  | other hnone _ ih =>
    cases h' with
    | other _ hrest => exact ih hrest
    | trait hsome => cases hnone.symm.trans hsome
  | trait hsome _ _ ih ihrest =>
    cases h' with
    | other hnone => cases hnone.symm.trans hsome
    | trait hsome' hinner hrest =>
      cases hsome.symm.trans hsome'
      rw [ih hinner, ihrest hrest]

theorem Visits.unique {last last' : List String} (h : i.Visits seen ns ms last)
    (h' : i.Visits seen ns ms' last') : ms = ms' ∧ last = last' := by
  induction h generalizing ms' last' with
  | nil =>
    cases h'
    exact ⟨rfl, rfl⟩
  | again hseen _ ih =>
    cases h' with
    | again _ hrest => exact ih hrest
    | other hnew => exact absurd hseen hnew
    | trait hnew => exact absurd hseen hnew
  | other hnew hnone _ ih =>
    cases h' with
    | again hseen => exact absurd hseen hnew
    | other _ _ hrest => exact ih hrest
    | trait _ hsome => cases hnone.symm.trans hsome
  | trait hnew hsome _ _ ih ihrest =>
    cases h' with
    | again hseen => exact absurd hseen hnew
    | other _ hnone => cases hnone.symm.trans hsome
    | trait _ hsome' hinner hrest =>
      cases hsome.symm.trans hsome'
      obtain ⟨rfl, rfl⟩ := ih hinner
      obtain ⟨rfl, rfl⟩ := ihrest hrest
      exact ⟨rfl, rfl⟩

/-- The methods of traits that were gone through. -/
def methodsOf (found : List (String × Option ClassInfo)) : List MethodInfo :=
  found.flatMap fun (_, t) => (t.map (·.methods)).getD []

/-- The methods that the traits of a class offer. -/
def offered (i : Index) (c : ClassInfo) : List MethodInfo := methodsOf (i.traitsOf c)

/- The traits that are unseen are those whose key was not come to. Names with others pending after
them are gone through as in the recursion, and then the others. -/
theorem exists_visits (i : Index) (unseen : List ClassInfo) (seen ns : List String)
    (h : ∀ k, k ∉ seen → findClass? unseen k = findClass? i.classes k) :
    ∃ ms unseen' seen', i.Visits seen ns ms seen' ∧ unseen'.length ≤ unseen.length ∧
      (∀ k, k ∉ seen' → findClass? unseen' k = findClass? i.classes k) ∧
      ∀ pending, methodsOf (expandTraits unseen seen (ns ++ pending)) =
        ms ++ methodsOf (expandTraits unseen' seen' pending) := by
  induction hlen : unseen.length using Nat.strongRecOn generalizing unseen seen ns with
  | _ len ihlen =>
  induction ns generalizing seen with
  | nil => exact ⟨[], unseen, seen, .nil, hlen.le, h, fun _ => rfl⟩
  | cons n ns ih =>
    by_cases hseen : classKey n ∈ seen
    · obtain ⟨ms, unseen', seen', hvisits, hle, hfind, hrun⟩ := ih seen h
      refine ⟨ms, unseen', seen', .again hseen hvisits, hle, hfind, fun pending => ?_⟩
      rw [List.cons_append, expandTraits, if_pos (List.contains_iff_mem.mpr hseen)]
      exact hrun pending
    · have hcontains : ¬ seen.contains (classKey n) = true := by simpa using hseen
      have hfresh : ∀ k, k ∉ classKey n :: seen → findClass? unseen k = findClass? i.classes k :=
        fun k hk => h k (List.not_mem_of_not_mem_cons hk)
      have htrait : i.traitAt? (classKey n) =
          (findClass? unseen (classKey n)).filter (·.kind = .traitType) := by
        rw [traitAt?, h _ hseen]
      cases ht : i.traitAt? (classKey n) with
      | none =>
        obtain ⟨ms, unseen', seen', hvisits, hle, hfind, hrun⟩ := ih (classKey n :: seen) hfresh
        refine ⟨ms, unseen', seen', .other hseen ht hvisits, hle, hfind, fun pending => ?_⟩
        have hother : ∀ t, findClass? unseen (classKey n) = some t → t.kind ≠ .traitType := by
          intro t hfound
          rw [htrait, hfound] at ht
          simpa using ht
        rw [List.cons_append, expandTraits_other hcontains hother]
        exact hrun pending
      | some t =>
        obtain ⟨hfound, hkind⟩ := Option.filter_eq_some_iff.mp (htrait.symm.trans ht)
        have hless := hlen ▸ dropClass_length_lt hfound
        have hdrop : ∀ k, k ∉ classKey n :: seen →
            findClass? (dropClass unseen (classKey n)) k = findClass? i.classes k := by
          intro k hk
          rw [findClass?_dropClass, if_neg (List.ne_of_not_mem_cons hk)]
          exact hfresh k hk
        obtain ⟨nested, unseen₁, between, hnested, hle₁, hfind₁, hrun₁⟩ :=
          ihlen _ hless (dropClass unseen (classKey n)) (classKey n :: seen) t.traits hdrop rfl
        obtain ⟨ms, unseen₂, seen', hrest, hle₂, hfind₂, hrun₂⟩ :=
          ihlen _ (Nat.lt_of_le_of_lt hle₁ hless) unseen₁ between ns hfind₁ rfl
        refine ⟨t.methods ++ nested ++ ms, unseen₂, seen', .trait hseen ht hnested hrest,
          hle₂.trans (hle₁.trans hless.le), hfind₂, fun pending => ?_⟩
        rw [List.cons_append, expandTraits_trait hcontains hfound (by simpa using hkind)]
        have hcons (found : List (String × Option ClassInfo)) :
            methodsOf ((n, some t) :: found) = t.methods ++ methodsOf found := rfl
        rw [hcons, hrun₁, hrun₂]
        simp only [List.append_assoc]

/-- The recursion ends, whatever the uses are like, and gives what is offered. -/
theorem visits_iff_offered (i : Index) (c : ClassInfo) :
    (∃ last, i.Visits [] c.traits ms last) ↔ ms = i.offered c := by
  obtain ⟨all, unseen', seen', hvisits, _, _, hrun⟩ :=
    i.exists_visits i.classes [] c.traits fun _ _ => rfl
  have hall : all = i.offered c := by
    have hdone : methodsOf (expandTraits unseen' seen' []) = [] := by
      rw [expandTraits]
      rfl
    have := hrun []
    rw [hdone, List.append_nil, List.append_nil] at this
    exact this.symm
  constructor
  · rintro ⟨last, h⟩
    exact (h.unique hvisits).1.trans hall
  · rintro rfl
    exact ⟨seen', hall ▸ hvisits⟩

/- The methods taken over, by the rule of the first of each name. -/
theorem adopted_eq_firstOfNames (i : Index) (c : ClassInfo) :
    i.adopted c = (firstOfNames c.methods (i.offered c)).map (·.adopt c.name) := by
  have hwanted (m : MethodInfo) :
      (c.ownMethod? m.name).isNone = !c.methods.any (·.sameName m) := by
    rw [ClassInfo.ownMethod?, Bool.eq_iff_iff]
    simp [MethodInfo.sameName]
  have hname (m n : MethodInfo) (h : m.sameName n = true) :
      (!c.methods.any (·.sameName m)) = !c.methods.any (·.sameName n) := by
    have hsame (a : MethodInfo) : a.sameName m = a.sameName n := Text.same_congr_right h a.name
    simp only [hsame]
  change (distinct MethodInfo.sameName ((i.offered c).filter
    fun m => (c.ownMethod? m.name).isNone)).map _ = _
  rw [firstOfNames_eq_filter, ← distinct_filter hname]
  simp only [hwanted]

/-- A trait uses another name, both given by their keys. -/
def Uses (i : Index) (k k' : String) : Prop :=
  ∃ t, i.traitAt? k = some t ∧ ∃ n ∈ t.traits, classKey n = k'

/-- Some of these names leads to the key through uses. -/
def Leads (i : Index) (ns : List String) (k : String) : Prop :=
  ∃ n ∈ ns, Relation.ReflTransGen i.Uses (classKey n) k

/-- No trait that these names lead to leads back to itself. -/
def EndingUses (i : Index) (ns : List String) : Prop :=
  ∀ k, i.Leads ns k → ¬ Relation.TransGen i.Uses k k

namespace Leads

theorem cons (h : i.Leads ns k) : i.Leads (n :: ns) k := by
  obtain ⟨m, hm, hk⟩ := h
  exact ⟨m, List.mem_cons_of_mem _ hm, hk⟩

theorem self : i.Leads (n :: ns) (classKey n) := ⟨n, List.mem_cons_self, .refl⟩

theorem head (ht : i.traitAt? (classKey n) = some t) (h : i.Leads t.traits k) :
    i.Leads (n :: ns) k := by
  obtain ⟨m, hm, hk⟩ := h
  exact ⟨n, List.mem_cons_self, .head ⟨t, ht, m, hm, rfl⟩ hk⟩

end Leads

namespace EndingUses

theorem tail (h : i.EndingUses (n :: ns)) : i.EndingUses ns := fun k hk => h k hk.cons

theorem inner (h : i.EndingUses (n :: ns)) (ht : i.traitAt? (classKey n) = some t) :
    i.EndingUses t.traits := fun k hk => h k (hk.head ht)

theorem not_leads (h : i.EndingUses (n :: ns)) (ht : i.traitAt? (classKey n) = some t) :
    ¬ i.Leads t.traits (classKey n) := by
  rintro ⟨m, hm, hk⟩
  exact h _ .self (.head' ⟨t, ht, m, hm, rfl⟩ hk)

/- Each trait on the way is left behind, so the recursion ends although nothing is passed over. -/
theorem exists_expands (h : i.EndingUses ns) : ∃ ms, i.Expands ns ms := by
  suffices hall : ∀ (unseen : List ClassInfo) (ns : List String), i.EndingUses ns →
      (∀ k t, i.Leads ns k → i.traitAt? k = some t → ∃ d, findClass? unseen k = some d) →
      ∃ ms, i.Expands ns ms from
    hall i.classes ns h fun _ t _ ht => ⟨t, (Option.filter_eq_some_iff.mp ht).1⟩
  intro unseen
  induction hlen : unseen.length using Nat.strongRecOn generalizing unseen with
  | _ len ihlen =>
  intro ns h hunseen
  induction ns with
  | nil => exact ⟨[], .nil⟩
  | cons n ns ih =>
    obtain ⟨ms, hms⟩ := ih h.tail fun k t hk => hunseen k t hk.cons
    cases ht : i.traitAt? (classKey n) with
    | none => exact ⟨ms, .other ht hms⟩
    | some t =>
      obtain ⟨d, hd⟩ := hunseen _ t .self ht
      obtain ⟨nested, hnested⟩ := ihlen _ (hlen ▸ dropClass_length_lt hd) _ rfl t.traits
        (h.inner ht) fun k u hk hu => by
          have hne : k ≠ classKey n := fun heq => h.not_leads ht (heq ▸ hk)
          rw [findClass?_dropClass, if_neg hne]
          exact hunseen k u (hk.head ht) hu
      exact ⟨_, .trait ht hnested hms⟩

end EndingUses

/-- The names of all these methods are names of methods listed before. -/
def Named (out ms : List MethodInfo) : Prop := Covers (out.map (·.name)) (ms.map (·.name))

namespace Named
variable {out out' : List MethodInfo}

theorem of_subset (h : ms ⊆ out) : Named out ms := Covers.of_subset (List.map_subset _ h)

theorem trans (h : Named out' out) (h' : Named out ms) : Named out' ms := Covers.trans h h'

theorem later (h : Named out ms) (more : List MethodInfo) : Named (out ++ more) ms :=
  (of_subset (List.subset_append_left _ _)).trans h

theorem append (h : Named out ms) (h' : Named out ms') : Named out (ms ++ ms') := by
  rw [Named, List.map_append]
  exact Covers.append h h'

theorem distinct_append (h : Named out ms) (more : List MethodInfo) :
    distinct MethodInfo.sameName (out ++ (ms ++ more)) =
      distinct MethodInfo.sameName (out ++ more) := by
  refine distinct_append_covered MethodInfo.sameName sameName_trans (fun m hm => ?_) more
  obtain ⟨name, hname, hsame⟩ := h m.name (List.mem_map_of_mem hm)
  obtain ⟨a, ha, rfl⟩ := List.mem_map.mp hname
  exact ⟨a, ha, hsame⟩

end Named

/-- All that the trait with this key brings has names that are listed. -/
def Exhausted (i : Index) (out : List MethodInfo) (k : String) : Prop :=
  ∀ t nested, i.traitAt? k = some t → i.Expands t.traits nested → Named out (t.methods ++ nested)

namespace Exhausted
variable {out : List MethodInfo}

theorem later (h : i.Exhausted out k) (more : List MethodInfo) : i.Exhausted (out ++ more) k :=
  fun t nested ht hexp => (h t nested ht hexp).later more

theorem of_none (h : i.traitAt? k = none) : i.Exhausted out k :=
  fun t _ ht => by cases h.symm.trans ht

/- A key that is exhausted need not be counted among those come to before. -/
theorem of_cons {last : List String} (hn : i.Exhausted out (classKey n))
    (h : ∀ k ∈ last, k ∈ classKey n :: seen ∨ i.Exhausted out k) :
    ∀ k ∈ last, k ∈ seen ∨ i.Exhausted out k := by
  intro k hk
  rcases h k hk with hk | hk
  · rcases List.mem_cons.mp hk with rfl | hk
    · exact .inr hn
    · exact .inl hk
  · exact .inr hk

end Exhausted

/-- Of the keys that were come to, those that these names lead to are exhausted. -/
def Spent (i : Index) (out : List MethodInfo) (seen ns : List String) : Prop :=
  ∀ k ∈ seen, i.Leads ns k → i.Exhausted out k

namespace Spent
variable {out : List MethodInfo}

theorem tail (h : i.Spent out seen (n :: ns)) : i.Spent out seen ns :=
  fun k hk hleads => h k hk hleads.cons

theorem other (h : i.Spent out seen (n :: ns)) (hnone : i.traitAt? (classKey n) = none) :
    i.Spent out (classKey n :: seen) ns := by
  intro k hk hleads
  rcases List.mem_cons.mp hk with rfl | hk
  · exact .of_none hnone
  · exact h k hk hleads.cons

/- The trait that is being gone through is come to but not exhausted; as uses end, nothing inside
leads to it. -/
theorem inner (h : i.Spent out seen (n :: ns)) (hends : i.EndingUses (n :: ns))
    (hsome : i.traitAt? (classKey n) = some t) :
    i.Spent (out ++ t.methods) (classKey n :: seen) t.traits := by
  intro k hk hleads
  rcases List.mem_cons.mp hk with rfl | hk
  · exact absurd hleads (hends.not_leads hsome)
  · exact (h k hk (hleads.head hsome)).later _

theorem next {more : List MethodInfo} {between : List String} (h : i.Spent out seen (n :: ns))
    (hbetween : ∀ k ∈ between, k ∈ seen ∨ i.Exhausted (out ++ more) k) :
    i.Spent (out ++ more) between ns := by
  intro k hk hleads
  rcases hbetween k hk with hk | hk
  · exact (h k hk hleads.cons).later _
  · exact hk

end Spent

/-- After what is listed, the methods of a visit have the same first ones as the whole expansion,
and the keys that the visit came to are exhausted. -/
structure Agrees (i : Index) (out : List MethodInfo) (seen : List String) (ms all : List MethodInfo)
    (last : List String) : Prop where
  same : distinct MethodInfo.sameName (out ++ ms) = distinct MethodInfo.sameName (out ++ all)
  named : Named (out ++ ms) all
  spent : ∀ k ∈ last, k ∈ seen ∨ i.Exhausted (out ++ ms) k

namespace Agrees
variable {out all : List MethodInfo} {last : List String}

/- A trait that was gone through before brings nothing new. -/
theorem skip (h : i.Agrees out seen ms all last) (hdone : Named out nested) :
    i.Agrees out seen ms (nested ++ all) last where
  same := h.same.trans (hdone.distinct_append all).symm
  named := (hdone.later ms).append h.named
  spent := h.spent

/- A trait is exhausted by its methods and those of the traits that it uses. -/
theorem exhausted (h : i.Agrees (out ++ t.methods) seen ms nested last)
    (hsome : i.traitAt? (classKey n) = some t) (hinner : i.Expands t.traits nested) :
    i.Exhausted (out ++ (t.methods ++ ms)) (classKey n) := by
  intro u inner hu hexp
  cases hsome.symm.trans hu
  rw [hexp.unique hinner, ← List.append_assoc]
  exact .append (.of_subset fun m hm => by simp [hm]) h.named

/- First a trait with those that it uses, and then what comes after it. -/
theorem append {visited : List MethodInfo} {between : List String}
    (hn : i.Exhausted (out ++ (t.methods ++ visited)) (classKey n))
    (hsome : i.traitAt? (classKey n) = some t) (hinner : i.Expands t.traits nested)
    (hbetween : ∀ k ∈ between, k ∈ seen ∨ i.Exhausted (out ++ (t.methods ++ visited)) k)
    (h : i.Agrees (out ++ t.methods) (classKey n :: seen) visited nested between)
    (h' : i.Agrees (out ++ (t.methods ++ visited)) between ms all last) :
    i.Agrees out seen (t.methods ++ visited ++ ms) (t.methods ++ nested ++ all) last where
  same := by
    have hinside : distinct MethodInfo.sameName (out ++ (t.methods ++ visited) ++ all) =
        distinct MethodInfo.sameName (out ++ (t.methods ++ nested) ++ all) := by
      rw [← List.append_assoc, ← List.append_assoc,
        ← distinct_distinct_append _ sameName_refl sameName_trans, h.same,
        distinct_distinct_append _ sameName_refl sameName_trans]
    rw [← List.append_assoc out _ ms, ← List.append_assoc out _ all]
    exact h'.same.trans hinside
  named := by
    rw [← List.append_assoc]
    exact ((hn t nested hsome hinner).later ms).append h'.named
  spent := by
    intro k hk
    rw [← List.append_assoc]
    rcases h'.spent k hk with hk | hk
    · exact (hbetween k hk).imp_right (·.later ms)
    · exact .inr hk

end Agrees

theorem Visits.agrees {out all : List MethodInfo} (hexpands : i.Expands ns all)
    (hends : i.EndingUses ns) (h : i.Visits seen ns ms seen') (hseen : i.Spent out seen ns) :
    i.Agrees out seen ms all seen' := by
  induction hexpands generalizing seen ms seen' out with
  | nil =>
    cases h
    exact ⟨rfl, .of_subset (List.nil_subset _), fun _ => .inl⟩
  | @other n ns all hnone hrest ih =>
    cases h with
    | again _ h => exact ih hends.tail h hseen.tail
    | trait _ hsome => cases hnone.symm.trans hsome
    | other _ _ h =>
      obtain ⟨hsame, hnamed, hspent⟩ := ih hends.tail h (hseen.other hnone)
      exact ⟨hsame, hnamed, (Exhausted.of_none hnone).of_cons hspent⟩
  | @trait n ns t nested all hsome hinner hrest ih ihrest =>
    cases h with
    | other _ hnone => cases hnone.symm.trans hsome
    | again hkey h =>
      exact (ihrest hends.tail h hseen.tail).skip (hseen _ hkey .self t nested hsome hinner)
    | @trait _ _ _ t' visited between ms _ hnew hsome' hvisits h =>
      cases hsome.symm.trans hsome'
      have hused := ih (hends.inner hsome) hvisits (hseen.inner hends hsome)
      have hn := hused.exhausted hsome hinner
      have hbetween : ∀ k ∈ between, k ∈ seen ∨ i.Exhausted (out ++ (t.methods ++ visited)) k := by
        rw [← List.append_assoc] at hn ⊢
        exact hn.of_cons hused.spent
      exact .append hn hsome hinner hbetween hused (ihrest hends.tail h (hseen.next hbetween))

/-- If the uses end, what is offered and the whole expansion have the same first methods. -/
theorem firstOfNames_expands {c : ClassInfo} (hends : i.EndingUses c.traits)
    (h : i.Expands c.traits ms) (taken : List MethodInfo) :
    firstOfNames taken ms = firstOfNames taken (i.offered c) := by
  obtain ⟨last, hvisits⟩ := (i.visits_iff_offered c).mpr rfl
  have hseen : i.Spent [] [] c.traits := fun _ hk => by cases hk
  have hagrees := hvisits.agrees h hends hseen
  rw [firstOfNames_eq_filter, firstOfNames_eq_filter]
  exact congrArg _ hagrees.same.symm

end

theorem firstDeclared_keys_nodup (cs : List ClassInfo) :
    ((firstDeclared cs).map (·.key)).Nodup := by
  refine List.pairwise_map.mpr ((distinct_pairwise _ cs).imp fun {c d} hne hkey => ?_)
  rw [c.key_eq, d.key_eq] at hkey
  exact absurd (sameClass_iff.mpr hkey) (by simp [hne])

/- A table in another order finds the same types, so their methods are the same as well. -/
theorem get?_applyTraits_perm {classes : List ClassInfo} {i : Index}
    (hkeys : (i.classes.map (·.key)).Nodup) (h : classes.Perm i.classes) (unparsed : List Path)
    (name : String) : (applyTraits ⟨classes, unparsed⟩).get? name = i.applyTraits.get? name := by
  have hfind (key : String) : findClass? classes key = findClass? i.classes key := by
    rw [findClass?, findClass?, List.find?_eq_findSome?_guard, List.find?_eq_findSome?_guard]
    refine (findSome?_perm h.symm fun a ha b hb x y hx hy => ?_).symm
    obtain ⟨rfl, hxkey⟩ := Option.guard_eq_some_iff.mp hx
    obtain ⟨rfl, hykey⟩ := Option.guard_eq_some_iff.mp hy
    exact List.inj_on_of_nodup_map hkeys ha hb
      ((beq_iff_eq.mp hxkey).trans (beq_iff_eq.mp hykey).symm)
  have hsame : Respells id i ⟨classes, unparsed⟩ := fun key =>
    (hfind key).trans (i.respells_id key)
  rw [hsame.applyTraits.get?, ← (respells_id i.applyTraits).get? name]

/-- Every type of the table has, after its own methods, the first of each further name among those
that its traits offer, as methods of its own. What is offered is found by going through the traits
as they are declared, each once, which always comes to an end. If no trait leads back to itself, the
expansion that leaves nothing out ends too and has the same first methods. The order in which the
types stand does not matter. -/
theorem build_adds_first_offered (paths : List Path) (w : Workspace) :
    let built := ((build paths).run w).1
    let declared := declaredIn ((Workspace.parseAll paths).run w).1
    built.classes.length = declared.classes.length ∧
    (∀ (k : Nat) (c : ClassInfo), declared.classes[k]? = some c → ∃ offered,
      (∀ ms, (∃ last, declared.Visits [] c.traits ms last) ↔ ms = offered) ∧
      built.classes[k]? = some { c with
        methods := c.methods ++ (firstOfNames c.methods offered).map (·.adopt c.name) } ∧
      (declared.EndingUses c.traits → ∃ all, (∀ ms, declared.Expands c.traits ms ↔ ms = all) ∧
        firstOfNames c.methods all = firstOfNames c.methods offered)) ∧
    ∀ classes, classes.Perm declared.classes → ∀ name,
      (applyTraits ⟨classes, declared.unparsed⟩).get? name = built.get? name := by
  intro built declared
  have hbuilt : built = declared.applyTraits := build_eq_applyTraits paths w
  have hkeys : (declared.classes.map (·.key)).Nodup := firstDeclared_keys_nodup _
  clear_value built declared
  subst hbuilt
  refine ⟨List.length_map .., fun k c hc => ?_, fun classes hperm name => ?_⟩
  · refine ⟨declared.offered c, fun ms => declared.visits_iff_offered c, ?_, fun hends => ?_⟩
    · rw [← adopted_eq_firstOfNames, applyTraits, List.getElem?_map, hc]
      rfl
    · obtain ⟨all, hall⟩ := hends.exists_expands
      refine ⟨all, fun ms => ⟨fun h => h.unique hall, ?_⟩, firstOfNames_expands hends hall _⟩
      rintro rfl
      exact hall
  · exact get?_applyTraits_perm hkeys hperm _ name

theorem endingUses_of_rank {i : Index} {ns : List String} (rank : String → Nat)
    (h : ∀ t ∈ i.classes, t.kind = .traitType → ∀ n ∈ t.traits, rank t.key < rank (classKey n)) :
    i.EndingUses ns := by
  have huses {k k' : String} : i.Uses k k' → rank k < rank k' := by
    rintro ⟨t, ht, n, hn, rfl⟩
    obtain ⟨hfound, hkind⟩ := Option.filter_eq_some_iff.mp ht
    rw [← findClass?_key hfound]
    exact h t (List.mem_of_find?_eq_some hfound) (by simpa using hkind) n hn
  intro k _ hk
  have hless : Relation.TransGen (· < ·) (rank k) (rank k) := hk.lift rank fun _ _ => huses
  rw [Relation.transGen_eq_self] at hless
  exact Nat.lt_irrefl _ hless

end Index

/- Types with new names stay as they are behind the built-in ones. -/
theorem firstDeclared_builtin_append {cs : List ClassInfo}
    (hnew : ∀ c ∈ cs, ∀ b ∈ Builtin.classes, sameClass b.name c.name = false)
    (hself : cs.Pairwise fun c d => sameClass c.name d.name = false) :
    firstDeclared (Builtin.classes ++ cs) = Builtin.classes ++ cs := by
  refine distinct_eq_self (List.pairwise_append.mpr ⟨?_, hself, fun b hb c hc => hnew c hc b hb⟩)
  have hbuiltin : Builtin.classes = firstDeclared Builtin.classes := Index.builtin_firstDeclared
  rw [hbuiltin]
  exact distinct_pairwise _ _

namespace Sample

/-- A class uses a trait with an abstract method, and then a trait that uses the first as well and
has a body for that method. Its parent has one too. Another class uses the second trait alone. -/
def sharing : List (Path × String) := [(⟨"a.php"⟩, "<?php
trait A {abstract function m(); function own() {}}
trait B {use A; function m() {} function b(self $x): parent {}}
class P {function m() {}}
class D extends P {use A, B; function own() {}}
class E {use B;}")]

/-- A method that stands on one line. -/
def onLine (line : Nat) (owner name : String) : MethodInfo :=
  ⟨name, owner, owner, .publicly, false, false, none, none, [], some (line, line), some ⟨"a.php"⟩⟩

def sharingType (kind : TypeKind) (name : String) (traits : List String)
    (methods : List MethodInfo) : ClassInfo :=
  { Builtin.concrete name none [] with kind, traits, file := some ⟨"a.php"⟩, methods }

/-- The method of the second trait whose types depend on the class that uses it. -/
def relative : MethodInfo :=
  { onLine 3 "B" "b" with
    returnType := some ⟨[["B"]]⟩, params := [⟨"x", some ⟨[["B"]]⟩⟩] }

def bodiless : MethodInfo := { onLine 2 "A" "m" with isAbstract := true }

def traitA : ClassInfo := sharingType .traitType "A" [] [bodiless, onLine 2 "A" "own"]

def traitB : ClassInfo := sharingType .traitType "B" ["A"] [onLine 3 "B" "m", relative]

def classP : ClassInfo := sharingType .classType "P" [] [onLine 4 "P" "m"]

def classD : ClassInfo :=
  { sharingType .classType "D" ["A", "B"] [onLine 5 "D" "own"] with parent := some "P" }

def classE : ClassInfo := sharingType .classType "E" ["B"] []

/-- The types of the file as they are declared. -/
def sharingTypes : List ClassInfo := [traitA, traitB, classP, classD, classE]

theorem sharing_typesFound :
    typesFound ((Workspace.parseAll [⟨"a.php"⟩]).run (inMemory sharing)).1 = sharingTypes ∧
    treeless ((Workspace.parseAll [⟨"a.php"⟩]).run (inMemory sharing)).1 = [] := by
  decide +kernel

def sharingDeclared : Index := ⟨Builtin.classes ++ sharingTypes, []⟩

theorem sharing_new : ∀ c ∈ sharingTypes, ∀ b ∈ Builtin.classes,
    sameClass b.name c.name = false := by
  decide +kernel

theorem sharing_declared :
    Index.declaredIn ((Workspace.parseAll [⟨"a.php"⟩]).run (inMemory sharing)).1 =
      sharingDeclared := by
  obtain ⟨htypes, htreeless⟩ := sharing_typesFound
  rw [Index.declaredIn, htypes, htreeless,
    firstDeclared_builtin_append sharing_new (by decide +kernel)]
  rfl

theorem sharing_find {c : ClassInfo} (h : c ∈ sharingTypes) :
    findClass? sharingDeclared.classes c.key = some c := by
  have hnone : findClass? Builtin.classes c.key = none := by
    refine List.find?_eq_none.mpr fun b hb => ?_
    have hne : classKey b.name ≠ classKey c.name := fun heq => by
      simpa [sharing_new c h b hb] using sameClass_iff.mpr heq
    simpa [b.key_eq, c.key_eq] using hne
  have hown : ∀ c ∈ sharingTypes, findClass? sharingTypes c.key = some c := by decide +kernel
  rw [sharingDeclared, findClass?, List.find?_append]
  change (findClass? Builtin.classes c.key).or (findClass? sharingTypes c.key) = _
  rw [hnone, hown c h]
  rfl

theorem sharing_traitAt? {t : ClassInfo} (h : t ∈ sharingTypes) (hkind : t.kind = .traitType) :
    sharingDeclared.traitAt? t.key = some t := by
  rw [Index.traitAt?, sharing_find h]
  simp [hkind]

theorem sharing_A : sharingDeclared.traitAt? (classKey "A") = some traitA :=
  sharing_traitAt? (t := traitA) (by simp [sharingTypes]) rfl

theorem sharing_B : sharingDeclared.traitAt? (classKey "B") = some traitB :=
  sharing_traitAt? (t := traitB) (by simp [sharingTypes]) rfl

theorem sharing_keys : classKey "B" ∉ [classKey "A"] := by decide

/- The first trait is not gone through again inside the second. -/
theorem sharing_visits : ∃ last, sharingDeclared.Visits [] classD.traits
    [bodiless, onLine 2 "A" "own", onLine 3 "B" "m", relative] last :=
  ⟨_, .trait List.not_mem_nil sharing_A .nil
    (.trait sharing_keys sharing_B (.again (by simp) .nil) .nil)⟩

end Sample

theorem Index.build_adds_first_offered_sample :
    Sample.sharingDeclared.EndingUses Sample.classD.traits ∧
    Sample.sharingDeclared.Expands Sample.classD.traits [Sample.bodiless, Sample.onLine 2 "A" "own",
      Sample.onLine 3 "B" "m", Sample.relative, Sample.bodiless, Sample.onLine 2 "A" "own"] ∧
    (∃ k : Nat, ((build [⟨"a.php"⟩]).run (inMemory Sample.sharing)).1.classes[k]? =
      some { Sample.classD with methods :=
        [Sample.onLine 5 "D" "own", Sample.bodiless.adopt "D", Sample.relative.adopt "D"] }) ∧
    (applyTraits ⟨Sample.sharingDeclared.classes.reverse, []⟩).get? "D" =
      ((build [⟨"a.php"⟩]).run (inMemory Sample.sharing)).1.get? "D" := by
  have hends : Sample.sharingDeclared.EndingUses Sample.classD.traits :=
    endingUses_of_rank (["b"].idxOf ·) (by decide +kernel)
  have hadds := build_adds_first_offered [⟨"a.php"⟩] (inMemory Sample.sharing)
  rw [Sample.sharing_declared] at hadds
  obtain ⟨_, hall, hperm⟩ := hadds
  have hmem : Sample.classD ∈ Sample.sharingDeclared.classes :=
    List.mem_append_right _ (by simp [Sample.sharingTypes])
  obtain ⟨k, hk⟩ := List.mem_iff_getElem?.mp hmem
  obtain ⟨offered, hoffered, hbuilt, hexpands⟩ := hall k _ hk
  cases (hoffered _).mp Sample.sharing_visits
  refine ⟨hends, ?_, ⟨k, hbuilt.trans ?_⟩, hperm _ (List.reverse_perm _) "D"⟩
  · exact .trait Sample.sharing_A .nil
      (.trait Sample.sharing_B (.trait Sample.sharing_A .nil .nil) .nil)
  · decide +kernel

end ContractAudit
