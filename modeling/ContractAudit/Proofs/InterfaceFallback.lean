import ContractAudit.Proofs.InterfaceOrder
import ContractAudit.Proofs.Respelling

/-! Methods that a class has from its interfaces only. Main statement: the search goes upwards depth
first and ends at the first interface that declares the method, so it finds one exactly if there is
one. It passes no other on its way there, but one that comes later in the list may be nearer. -/
namespace ContractAudit

namespace Index
variable {i : Index} {owner name n k k' : String} {m : MethodInfo} {c : ClassInfo} {e : Edge}
  {es before after pending : List Edge} {unseen : List ClassInfo}

/-- Steps one after the other, up from one key to another. -/
inductive Route (i : Index) : String → List Edge → String → Prop
  | stay {k : String} : Route i k [] k
  | up {k k' : String} {es : List Edge} {c : ClassInfo} {e : Edge} : Route i k es k' →
      findClass? i.classes k' = some c → e ∈ edgesOf c → Route i k (es ++ [e]) (classKey e.target)

theorem Route.eq_of_nil (h : i.Route k [] k') : k = k' := by
  generalize hes : ([] : List Edge) = es at h
  cases h with
  | stay => rfl
  | up => simp at hes

/- A key that is neither this one nor where a step from it leads is farther off. -/
theorem Route.one_lt_length (h : i.Route k es k') (hself : k ≠ k')
    (hstep : ∀ c, findClass? i.classes k = some c → ∀ e ∈ edgesOf c, classKey e.target ≠ k') :
    1 < es.length := by
  cases h with
  | stay => exact absurd rfl hself
  | up h hc he =>
    cases h with
    | stay => exact absurd rfl (hstep _ hc _ he)
    | up => simp

/-- Fewer steps lead from a class to the first than to the second. -/
def Nearer (i : Index) (owner a b : String) : Prop :=
  ∃ es, i.Route (classKey owner) es (classKey a) ∧
    ∀ fs, i.Route (classKey owner) fs (classKey b) → es.length < fs.length

/- A step that is taken was pending at first, or goes up from where a step before it has led. -/
theorem climb_split (h : climb unseen pending = before ++ e :: after) :
    e ∈ pending ∨ ∃ e' ∈ before, ∃ c, findClass? unseen (classKey e'.target) = some c ∧
      e ∈ edgesOf c := by
  fun_induction climb unseen pending generalizing before with
  | case1 => simp at h
  | case2 unseen e₁ pending hnone ih =>
    rcases List.cons_eq_append_iff.mp h with ⟨rfl, heq⟩ | ⟨before', rfl, heq⟩
    · cases heq
      exact .inl List.mem_cons_self
    · rcases ih heq with hpending | ⟨e', he', hc⟩
      · exact .inl (List.mem_cons_of_mem _ hpending)
      · exact .inr ⟨e', List.mem_cons_of_mem _ he', hc⟩
  | case3 unseen e₁ pending c hsome ih =>
    rcases List.cons_eq_append_iff.mp h with ⟨rfl, heq⟩ | ⟨before', rfl, heq⟩
    · cases heq
      exact .inl List.mem_cons_self
    · rcases ih heq with hpending | ⟨e', he', d, hd, he⟩
      · rcases List.mem_append.mp hpending with hedge | hpending
        · exact .inr ⟨e₁, List.mem_cons_self, c, hsome, hedge⟩
        · exact .inl (List.mem_cons_of_mem _ hpending)
      · exact .inr ⟨e', List.mem_cons_of_mem _ he', d, findClass?_of_dropClass hd, he⟩

/-- A step that is taken is the last of a route whose other steps were taken before it. -/
theorem ascent_route (h : i.ascent owner = before ++ e :: after) :
    ∃ es, i.Route (classKey owner) (es ++ [e]) (classKey e.target) ∧ es ⊆ before := by
  unfold ascent at h
  cases howner : i.get? owner with
  | none => simp [howner] at h
  | some c =>
    rw [howner] at h
    dsimp only at h
    -- the step that led to where this one goes up from stands earlier in the list
    induction hlen : before.length using Nat.strongRecOn generalizing before e after with
    | _ len ih =>
    rcases climb_split h with hfirst | ⟨e', he', d, hd, he⟩
    · exact ⟨[], .up .stay howner hfirst, List.nil_subset _⟩
    · obtain ⟨before', after', rfl⟩ := List.append_of_mem he'
      have hless : before'.length < len := by
        simp only [List.length_append, List.length_cons] at hlen
        omega
      have hsplit : climb (dropClass i.classes c.key) (edgesOf c) =
          before' ++ e' :: (after' ++ e :: after) := by
        simpa only [List.append_assoc, List.cons_append] using h
      obtain ⟨es, hroute, hes⟩ := ih _ hless hsplit rfl
      have hfound : findClass? i.classes (classKey e'.target) = some d := findClass?_of_dropClass hd
      exact ⟨es ++ [e'], hroute.up hfound he, List.append_subset.mpr
        ⟨List.subset_append_of_subset_left _ hes, by simp⟩⟩

/-- The method as the class of this name declares it. -/
def declaredAt? (i : Index) (owner name : String) : Option MethodInfo :=
  (i.get? owner).bind (·.ownMethod? name)

theorem declaredAt?_congr {a b : String} (h : Text.same a b = true) :
    i.declaredAt? a name = i.declaredAt? b name := by
  rw [declaredAt?, declaredAt?, i.get?_congr (beq_iff_eq.mp h)]

theorem declaredAt?_declaredName (n : String) :
    i.declaredAt? (i.declaredName n) name = i.declaredAt? n name := by
  rw [declaredAt?, declaredAt?, get?_declaredName]

/-- A solution of the plain recursion for a method: each own interface and then what the search from
there gives, then what the search from the parent gives. -/
structure Search (i : Index) (name : String) (search : String → Option MethodInfo) : Prop where
  undeclared : ∀ n, i.get? n = none → search n = none
  declared : ∀ n c, i.get? n = some c → search n =
    (c.interfaces.findSome? fun m => (i.declaredAt? m name).or (search m)).or (c.parent.bind search)

theorem Search.unique (hi : i.Acyclic) {search search' : String → Option MethodInfo}
    (h : i.Search name search) (h' : i.Search name search') : search = search' := by
  funext n
  induction n using hi.induction with
  | step n ih =>
    cases hn : i.get? n with
    | none => rw [h.undeclared n hn, h'.undeclared n hn]
    | some c =>
      have hinterfaces : ∀ m ∈ c.interfaces, search m = search' m := fun m hm =>
        ih c hn (.interface m) (mem_edgesOf.mpr (.inl ⟨m, hm, rfl⟩))
      have hparent : ∀ p, c.parent = some p → search p = search' p := fun p hp =>
        ih c hn (.parent p) (mem_edgesOf.mpr (.inr ⟨p, hp, rfl⟩))
      rw [h.declared n c hn, h'.declared n c hn, Option.bind_congr hparent,
        ← List.head?_filterMap, ← List.head?_filterMap]
      congr 2
      exact List.filterMap_congr fun m hm => by rw [hinterfaces m hm]

/- To search the interfaces that a class expands to is a solution. -/
theorem Expansion.search {expand : String → List String} (h : i.Expansion expand) :
    i.Search name fun n => (expand n).findSome? (i.declaredAt? · name) where
  undeclared n hn := by rw [h.undeclared n hn]; rfl
  declared n c hn := by
    have hparent : (c.parent.toList.flatMap expand).findSome? (i.declaredAt? · name) =
        c.parent.bind fun p => (expand p).findSome? (i.declaredAt? · name) := by
      cases c.parent <;> simp
    rw [h.declared n c hn, List.findSome?_append, hparent, ← List.head?_filterMap,
      List.filterMap_flatMap, List.head?_flatMap]
    simp only [List.head?_filterMap, List.findSome?_cons, declaredAt?_declaredName]
    congr 2
    funext m
    cases i.declaredAt? m name <;> rfl

/- The class and its parents have no such method, so the interfaces are searched. -/
theorem method?_eq_findSome?_interfaces
    (h : ∀ c ∈ lineage i.classes owner, c.ownMethod? name = none) :
    i.method? owner name = (i.interfaces owner).findSome? (i.declaredAt? · name) := by
  have hnone : inherited? i.classes owner name = none := by
    rw [inherited?_eq_findSome?, List.findSome?_eq_none_iff]
    exact h
  rw [method?, hnone, ← List.head?_filterMap, List.filterMap_filterMap, List.head?_filterMap]
  rfl

theorem method?_eq_search (h : ∀ c ∈ lineage i.classes owner, c.ownMethod? name = none)
    (hi : i.Acyclic) {search : String → Option MethodInfo} (hsearch : i.Search name search) :
    i.method? owner name = search owner := by
  have hexp := expandFrom_expansion hi
  rw [method?_eq_findSome?_interfaces h, interfaces_eq_distinct hi hexp,
    findSome?_distinct fun a b hab => declaredAt?_congr hab, hsearch.unique hi hexp.search]

/- The first interface in the list that declares a method is the first that is come to. -/
theorem exists_step_of_first {before after : List String}
    (h : i.interfaces owner = before ++ n :: after) (hn : i.declaredAt? n name = some m)
    (hbefore : ∀ b ∈ before, i.declaredAt? b name = none) :
    ∃ x earlier later, i.ascent owner = earlier ++ .interface x :: later ∧
      classKey x = classKey n ∧ ∀ y, .interface y ∈ earlier → i.declaredAt? y name = none := by
  have hfind : (i.interfaces owner).find? (fun b => (i.declaredAt? b name).isSome) = some n := by
    rw [h, List.find?_append, List.find?_eq_none.mpr (by simpa using hbefore)]
    simp [hn]
  rw [interfaces, find?_distinct fun a b hab => by rw [declaredAt?_congr hab], List.find?_map,
    List.find?_filterMap] at hfind
  obtain ⟨x, hx, hname⟩ := Option.map_eq_some_iff.mp hfind
  obtain ⟨step, hstep, hx⟩ := Option.bind_eq_some_iff.mp hx
  obtain ⟨_, earlier, later, hsplit, hearlier⟩ := List.find?_eq_some_iff_append.mp hstep
  cases step with
  | parent p => cases hx
  | interface x' =>
    cases hx
    refine ⟨x, earlier, later, hsplit, ?_, fun y hy => ?_⟩
    · rw [← hname, classKey_declaredName]
    · simpa [Edge.interface?, declaredAt?_declaredName] using hearlier _ hy

/- An interface that the class itself names is as near as one that declares the method can be. -/
theorem not_named_of_nearer (h : ∀ c ∈ lineage i.classes owner, c.ownMethod? name = none)
    {a x : String} (ha : i.declaredAt? a name ≠ none) (hnearer : i.Nearer owner a n)
    (hc : i.get? owner = some c) (hx : x ∈ c.interfaces) : classKey x ≠ classKey n := by
  intro hkey
  have hroute : i.Route (classKey owner) [.interface x] (classKey x) :=
    Route.stay.up hc (mem_edgesOf.mpr (.inl ⟨x, hx, rfl⟩))
  obtain ⟨es, hes, hless⟩ := hnearer
  rw [hkey] at hroute
  have hnil : es = [] := List.length_eq_zero_iff.mp (Nat.lt_one_iff.mp (hless _ hroute))
  subst hnil
  -- only the class itself is nearer, and it does not declare the method
  have hmem : c ∈ lineage i.classes owner := by
    rw [lineage_of_some hc]
    exact List.mem_cons_self
  have hown : i.declaredAt? owner name = none := by
    rw [declaredAt?, hc]
    exact h c hmem
  refine ha ?_
  rw [declaredAt?, get?, ← hes.eq_of_nil]
  exact hown

/-- Take a method that neither a class nor any of its parents has. It is found exactly if an
interface of the class declares it, and then in the first one of the list that does. A route leads
there that passes no other interface that declares the method. A nearer one comes later in the list,
and there is none if the class itself names the one that is found. Where no class lies above itself,
the search is the plain depth-first one. -/
theorem method?_from_first_interface (i : Index) (owner name : String)
    (h : ∀ c ∈ lineage i.classes owner, c.ownMethod? name = none) :
    (i.method? owner name = none ↔ ∀ n ∈ i.interfaces owner, i.declaredAt? n name = none) ∧
    (∀ m, i.method? owner name = some m → ∃ before n after,
      i.interfaces owner = before ++ n :: after ∧ i.declaredAt? n name = some m ∧
      (∀ b ∈ before, i.declaredAt? b name = none) ∧
      (∃ es x, i.Route (classKey owner) (es ++ [.interface x]) (classKey n) ∧
        ∀ y, .interface y ∈ es → i.declaredAt? y name = none) ∧
      ∀ a ∈ i.interfaces owner, i.declaredAt? a name ≠ none → i.Nearer owner a n →
        a ∈ after ∧ ∀ c, i.get? owner = some c → ∀ x ∈ c.interfaces, classKey x ≠ classKey n) ∧
    (i.Acyclic → (∃ search, i.Search name search) ∧
      ∀ search, i.Search name search → i.method? owner name = search owner) := by
  refine ⟨?_, fun m hm => ?_, fun hi => ⟨?_, fun search => method?_eq_search h hi⟩⟩
  · rw [method?_eq_findSome?_interfaces h]
    exact List.findSome?_eq_none_iff
  · rw [method?_eq_findSome?_interfaces h] at hm
    obtain ⟨before, n, after, hsplit, hn, hbefore⟩ := List.findSome?_eq_some_iff.mp hm
    obtain ⟨x, earlier, later, hascent, hx, hearlier⟩ := exists_step_of_first hsplit hn hbefore
    obtain ⟨es, hroute, hes⟩ := ascent_route hascent
    rw [Edge.target, hx] at hroute
    refine ⟨before, n, after, hsplit, hn, hbefore, ⟨es, x, hroute, fun y hy => hearlier y (hes hy)⟩,
      fun a ha hdeclares hnearer => ⟨?_, fun c hc x => not_named_of_nearer h hdeclares hnearer hc⟩⟩
    rw [hsplit] at ha
    rcases List.mem_append.mp ha with ha | ha
    · exact absurd (hbefore a ha) hdeclares
    · rcases List.mem_cons.mp ha with rfl | ha
      · obtain ⟨fs, hfs, hless⟩ := hnearer
        exact absurd (hless fs hfs) (Nat.lt_irrefl _)
      · exact ha
  · exact ⟨_, (expandFrom_expansion hi).search⟩

namespace Sample

def declaredM (owner : String) : MethodInfo := Builtin.method owner "m" [] "void"

/-- A class whose first interface has a parent that declares what its second one declares too. -/
def fork : Index :=
  ⟨[Builtin.interface "D" [] [declaredM "D"], Builtin.interface "A" ["D"] [],
    Builtin.interface "B" [] [declaredM "B"], Builtin.concrete "C" none ["A", "B"]], []⟩

theorem fork_acyclic : fork.Acyclic := acyclic_of_rank (["c", "a"].idxOf ·) (by decide +kernel)

theorem fork_lineage : ∀ c ∈ lineage fork.classes "C", c.ownMethod? "m" = none := by
  decide +kernel

theorem fork_interfaces : fork.interfaces "C" = ["A", "D", "B"] := by
  have hexp := expandFrom_expansion fork_acyclic
  have hD : fork.expandFrom fork.classes "D" = [] :=
    hexp.declared _ (Builtin.interface "D" [] [declaredM "D"]) (by decide +kernel)
  have hB : fork.expandFrom fork.classes "B" = [] :=
    hexp.declared _ (Builtin.interface "B" [] [declaredM "B"]) (by decide +kernel)
  have hdeclared : ["A", "D", "B"].map fork.declaredName = ["A", "D", "B"] := by decide +kernel
  simp only [List.map_cons, List.map_nil, List.cons.injEq, and_true] at hdeclared
  have hA : fork.expandFrom fork.classes "A" = ["D"] := by
    rw [hexp.declared "A" (Builtin.interface "A" ["D"] []) (by decide +kernel)]
    simp [Builtin.interface, hdeclared, hD]
  have hC : fork.expandFrom fork.classes "C" = ["A", "D", "B"] := by
    rw [hexp.declared "C" (Builtin.concrete "C" none ["A", "B"]) (by decide +kernel)]
    simp [Builtin.concrete, hdeclared, hA, hB]
  rw [interfaces_eq_distinct fork_acyclic hexp, hC]
  decide +kernel

theorem fork_method? : fork.method? "C" "m" = some (declaredM "D") := by
  rw [method?_eq_findSome?_interfaces fork_lineage, fork_interfaces]
  decide +kernel

theorem fork_nearer : fork.Nearer "C" "B" "D" := by
  have hC : fork.get? "C" = some (Builtin.concrete "C" none ["A", "B"]) := by decide +kernel
  refine ⟨[.interface "B"], Route.stay.up hC (by decide +kernel), fun fs hfs => ?_⟩
  refine hfs.one_lt_length (by decide +kernel) fun c hc => ?_
  cases hC.symm.trans hc
  decide +kernel

end Sample

theorem method?_from_first_interface_fork :
    (∀ c ∈ lineage Sample.fork.classes "C", c.ownMethod? "m" = none) ∧ Sample.fork.Acyclic ∧
    (∃ before n after, Sample.fork.interfaces "C" = before ++ n :: after ∧
      Sample.fork.declaredAt? n "m" = some (Sample.declaredM "D") ∧
      ∀ b ∈ before, Sample.fork.declaredAt? b "m" = none) ∧
    ∃ search, Sample.fork.Search "m" search ∧
      search "C" = some (Sample.declaredM "D") := by
  obtain ⟨_, hfound, hplain⟩ := method?_from_first_interface Sample.fork "C" "m" Sample.fork_lineage
  obtain ⟨before, n, after, hsplit, hn, hbefore, _⟩ := hfound _ Sample.fork_method?
  obtain ⟨⟨search, hsearch⟩, heq⟩ := hplain Sample.fork_acyclic
  exact ⟨Sample.fork_lineage, Sample.fork_acyclic, ⟨before, n, after, hsplit, hn, hbefore⟩,
    search, hsearch, (heq search hsearch).symm.trans Sample.fork_method?⟩

/-- The answer need not come from a nearest interface that declares the method. -/
theorem nearer_interface_passed_over :
    (∀ c ∈ lineage Sample.fork.classes "C", c.ownMethod? "m" = none) ∧
    ¬ ∃ n ∈ Sample.fork.interfaces "C",
      Sample.fork.method? "C" "m" = Sample.fork.declaredAt? n "m" ∧
      ∀ a ∈ Sample.fork.interfaces "C", Sample.fork.declaredAt? a "m" ≠ none →
        ¬ Sample.fork.Nearer "C" a n := by
  refine ⟨Sample.fork_lineage, ?_⟩
  rintro ⟨n, hn, hmethod, hnearest⟩
  rw [Sample.fork_interfaces] at hn hnearest
  rw [Sample.fork_method?] at hmethod
  have honly : ∀ n ∈ ["A", "D", "B"],
      some (Sample.declaredM "D") = Sample.fork.declaredAt? n "m" → n = "D" := by
    decide +kernel
  cases honly n hn hmethod
  exact hnearest "B" (by decide) (by decide +kernel) Sample.fork_nearer

end Index

end ContractAudit
