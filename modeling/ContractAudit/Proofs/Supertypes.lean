import ContractAudit.Proofs.InterfaceOrder

/-! Searching upwards from a class. Main statement: a class may stand in for itself and for what a
chain of declared parents and interfaces leads to, and a search that takes classes from a queue and
stops when it has found the other comes to the same answer. -/
namespace ContractAudit.Index
variable {i : Index} {a b k k' target : String} {seen queue : List String} {c : ClassInfo}

/-- The class declared under a name gives the other as its parent or as one of its interfaces. -/
def NamesAbove (i : Index) (a b : String) : Prop :=
  ∃ c, i.get? a = some c ∧ (c.parent = some b ∨ b ∈ c.interfaces)

theorem up_iff : i.Up k k' ↔
    ∃ c, findClass? i.classes k = some c ∧ ∃ b, (c.parent = some b ∨ b ∈ c.interfaces) ∧
      classKey b = k' := by
  constructor
  · rintro ⟨c, hc, e, he, rfl⟩
    rcases mem_edgesOf.mp he with ⟨b, hb, rfl⟩ | ⟨b, hb, rfl⟩
    · exact ⟨c, hc, b, .inr hb, rfl⟩
    · exact ⟨c, hc, b, .inl hb, rfl⟩
  · rintro ⟨c, hc, b, hb | hb, rfl⟩
    · exact ⟨c, hc, .parent b, mem_edgesOf.mpr (.inr ⟨b, hb, rfl⟩), rfl⟩
    · exact ⟨c, hc, .interface b, mem_edgesOf.mpr (.inl ⟨b, hb, rfl⟩), rfl⟩

/- A name stands for all names with its key, so a chain goes on from whichever one it came to. -/
theorem above_iff_chain : i.Above (classKey a) k ↔
    classKey a = k ∨ ∃ b, Relation.TransGen i.NamesAbove a b ∧ classKey b = k := by
  constructor
  · intro h
    induction h with
    | refl => exact .inl rfl
    | tail _ hup ih =>
      obtain ⟨c, hc, b, hb, rfl⟩ := up_iff.mp hup
      refine .inr ⟨b, ?_, rfl⟩
      rcases ih with rfl | ⟨x, hx, rfl⟩
      · exact .single ⟨c, hc, hb⟩
      · exact hx.tail ⟨c, hc, hb⟩
  · rintro (rfl | ⟨b, hb, rfl⟩)
    · exact .refl
    · induction hb with
      | single h =>
        obtain ⟨c, hc, hb⟩ := h
        exact .single (up_iff.mpr ⟨c, hc, _, hb, rfl⟩)
      | tail _ h ih =>
        obtain ⟨c, hc, hb⟩ := h
        exact ih.tail (up_iff.mpr ⟨c, hc, _, hb, rfl⟩)

/-- The keys of the parent and of the interfaces of the class with this key. -/
def keysAbove (i : Index) (k : String) : List String :=
  match findClass? i.classes k with
  | some c => (c.parent.toList ++ c.interfaces).map classKey
  | none => []

theorem mem_keysAbove : k' ∈ i.keysAbove k ↔ i.Up k k' := by
  rw [up_iff]
  unfold keysAbove
  cases findClass? i.classes k with
  | none => simp
  | some c => simp only [List.mem_map, List.mem_append, Option.mem_toList, Option.some.injEq,
      exists_eq_left']

/-- The classes whose keys are not seen yet. -/
def unseen (i : Index) (seen : List String) : List ClassInfo := i.classes.filter (·.key ∉ seen)

theorem unseen_cons (k : String) : i.unseen (k :: seen) = dropClass (i.unseen seen) k := by
  unfold unseen dropClass
  rw [List.filter_filter]
  refine List.filter_congr fun c _ => ?_
  by_cases hc : c.key = k <;> simp [hc]

theorem findClass?_unseen (hk : k ∉ seen) :
    findClass? (i.unseen seen) k = findClass? i.classes k := by
  unfold findClass? unseen
  rw [List.find?_filter]
  congr 1
  funext c
  by_cases hc : c.key = k
  · simp [hc, hk]
  · simp [hc]

/- Seeing a key leaves fewer classes to go up from, unless no class has it. -/
theorem unseen_length (hk : k ∉ seen) :
    i.keysAbove k = [] ∧ (i.unseen (k :: seen)).length ≤ (i.unseen seen).length ∨
      (i.unseen (k :: seen)).length < (i.unseen seen).length := by
  rw [unseen_cons]
  cases hfound : findClass? i.classes k with
  | none => exact .inl ⟨by simp [keysAbove, hfound], List.length_filter_le ..⟩
  | some c => exact .inr (dropClass_length_lt ((findClass?_unseen hk).trans hfound))

/-- Is the target in the queue, or above a key in it? Keys are taken from the front, and those above
them put at the end; a key that is seen already is passed over. -/
def search (i : Index) (target : String) (seen : List String) : List String → Bool
  | [] => false
  | k :: queue =>
    if k = target then true
    else if _hk : k ∈ seen then search i target seen queue
    else search i target (k :: seen) (queue ++ i.keysAbove k)
termination_by queue => ((i.unseen seen).length, queue.length)
decreasing_by
  · exact Prod.Lex.right _ (Nat.lt_succ_self _)
  · rcases unseen_length _hk with ⟨hnone, hle⟩ | hlt
    · rw [hnone, List.append_nil]
      rcases Nat.lt_or_eq_of_le hle with hlt | heq
      · exact Prod.Lex.left _ _ hlt
      · rw [heq]
        exact Prod.Lex.right _ (Nat.lt_succ_self _)
    · exact Prod.Lex.left _ _ hlt

/-- What the search keeps: the target is not seen, and a step up from a seen key leads to a seen key
or into the queue. -/
structure Explored (i : Index) (target : String) (seen queue : List String) : Prop where
  unmet : target ∉ seen
  closed : ∀ s ∈ seen, ∀ k, i.Up s k → k ∈ seen ∨ k ∈ queue

namespace Explored

theorem start : i.Explored target [] queue := ⟨by simp, by simp⟩

theorem skip (h : i.Explored target seen (k :: queue)) (hk : k ∈ seen) :
    i.Explored target seen queue := by
  refine ⟨h.unmet, fun s hs x hup => ?_⟩
  rcases h.closed s hs x hup with hx | hx
  · exact .inl hx
  · rcases List.mem_cons.mp hx with rfl | hx
    · exact .inl hk
    · exact .inr hx

theorem visit (h : i.Explored target seen (k :: queue)) (hk : k ≠ target) :
    i.Explored target (k :: seen) (queue ++ i.keysAbove k) := by
  refine ⟨by simp [h.unmet, hk.symm], fun s hs x hup => ?_⟩
  rcases List.mem_cons.mp hs with rfl | hs
  · exact .inr (List.mem_append_right _ (mem_keysAbove.mpr hup))
  · rcases h.closed s hs x hup with hx | hx
    · exact .inl (List.mem_cons_of_mem _ hx)
    · rcases List.mem_cons.mp hx with rfl | hx
      · exact .inl List.mem_cons_self
      · exact .inr (List.mem_append_left _ hx)

/- The way from a seen key to the target leaves the seen keys, and does so into the queue. -/
theorem exists_mem_queue (h : i.Explored target seen queue) (hk : k ∈ seen)
    (habove : i.Above k target) : ∃ q ∈ queue, i.Above q target := by
  induction habove using Relation.ReflTransGen.head_induction_on with
  | refl => exact absurd hk h.unmet
  | head hup hrest ih =>
    rcases h.closed _ hk _ hup with hseen | hqueue
    · exact ih hseen
    · exact ⟨_, hqueue, hrest⟩

end Explored

theorem above_of_search (h : i.search target seen queue = true) :
    ∃ k ∈ queue, i.Above k target := by
  fun_induction search i target seen queue with
  | case1 => cases h
  | case2 seen queue => exact ⟨target, List.mem_cons_self, .refl⟩
  | case3 seen k queue _ _ ih =>
    obtain ⟨q, hq, habove⟩ := ih h
    exact ⟨q, List.mem_cons_of_mem _ hq, habove⟩
  | case4 seen k queue _ _ ih =>
    obtain ⟨q, hq, habove⟩ := ih h
    rcases List.mem_append.mp hq with hq | hq
    · exact ⟨q, List.mem_cons_of_mem _ hq, habove⟩
    · exact ⟨k, List.mem_cons_self, .head (mem_keysAbove.mp hq) habove⟩

theorem search_of_above (hexplored : i.Explored target seen queue) (hk : k ∈ queue)
    (habove : i.Above k target) : i.search target seen queue = true := by
  fun_induction search i target seen queue generalizing k with
  | case1 => cases hk
  | case2 => rfl
  | case3 seen front queue _ hseen ih =>
    have hrest := hexplored.skip hseen
    rcases List.mem_cons.mp hk with rfl | hk
    · obtain ⟨q, hq, hq'⟩ := hrest.exists_mem_queue hseen habove
      exact ih hrest hq hq'
    · exact ih hrest hk habove
  | case4 seen front queue hne _ ih =>
    have hrest := hexplored.visit hne
    rcases List.mem_cons.mp hk with rfl | hk
    · obtain ⟨q, hq, hq'⟩ := hrest.exists_mem_queue List.mem_cons_self habove
      exact ih hrest hq hq'
    · exact ih hrest (List.mem_append_left _ hk) habove

theorem search_iff_above : i.search target [] [k] = true ↔ i.Above k target := by
  constructor
  · intro h
    simpa using above_of_search h
  · exact search_of_above .start (List.mem_singleton_self k)

/-- Whatever the hierarchy, a class may stand in for another exactly if the names are the same but
for letter case and leading backslashes, or parents and interfaces of declared classes lead up from
the one to the other. The search with a queue answers the same, and no declared step is gone through
twice. -/
theorem isSubtype_iff_chain (i : Index) (a b : String) :
    (i.isSubtype a b = true ↔ classKey a = classKey b ∨
      ∃ x, Relation.TransGen i.NamesAbove a x ∧ classKey x = classKey b) ∧
    i.isSubtype a b = i.search (classKey b) [] [classKey a] ∧
    (i.ascent a).length ≤ (i.classes.flatMap edgesOf).length := by
  refine ⟨isSubtype_iff.trans above_iff_chain, ?_, i.ascent_length a⟩
  rw [Bool.eq_iff_iff, isSubtype_iff, search_iff_above]

end ContractAudit.Index
