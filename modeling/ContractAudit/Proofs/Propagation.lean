import ContractAudit.Throws.Graph
import Mathlib.Data.Finset.Card
import Mathlib.Data.List.GetD
import Mathlib.Order.Monotone.Basic

/-! Passing exceptions back along the calls of a graph. Main statement: after as many rounds as
there are nodes, a node has exactly the exceptions that a chain of calls brings to it. -/
namespace ContractAudit.Throws.Graph
variable {i : Index} {nodes : List Node} {results : List NameSet} {o : String}

/-- A node raises an exception by itself, or by a call that lets it pass: the callee is a node that
raises it, or it is known already that the callee does. -/
inductive Raises (i : Index) (nodes : List Node) (o : String) : Nat → Prop where
  | own {p : Nat} {n : Node} : nodes[p]? = some n → o ∈ n.raised → Raises i nodes o p
  | settled {p : Nat} {n : Node} {e : Edge} {s : NameSet} : nodes[p]? = some n → e ∈ n.edges →
      e.target = .settled s → isCaught i e.caught o = false → o ∈ s → Raises i nodes o p
  | call {p q : Nat} {n : Node} {e : Edge} : nodes[p]? = some n → e ∈ n.edges →
      e.target = .node q → isCaught i e.caught o = false → Raises i nodes o q →
      Raises i nodes o p

theorem isCaught_eq_false {caught : List String} :
    isCaught i caught o = false ↔ ∀ t ∈ caught, i.isSubtype o t = false := by
  simp [isCaught]

theorem mem_passed {e : Edge} : o ∈ passed i results e ↔ isCaught i e.caught o = false ∧
    ((∃ q, e.target = .node q ∧ o ∈ results.getD q ∅) ∨ ∃ s, e.target = .settled s ∧ o ∈ s) := by
  unfold passed
  rw [NameSet.mem_filter]
  cases e.target with
  | node q => simp [and_comm]
  | settled s => simp [and_comm]

theorem mem_gain {n : Node} {own : NameSet} :
    o ∈ gain i results n own ↔ o ∈ own ∨ ∃ e ∈ n.edges, o ∈ passed i results e := by
  unfold gain
  induction n.edges generalizing own with
  | nil => simp
  | cons e es ih =>
    rw [List.foldl_cons, ih, NameSet.mem_union]
    simp only [List.mem_cons, exists_eq_or_imp, or_assoc]

theorem length_round (h : results.length = nodes.length) :
    (round i nodes results).length = nodes.length := by
  simp [round, h]

theorem mem_round (h : results.length = nodes.length) {p : Nat} :
    o ∈ (round i nodes results).getD p ∅ ↔ o ∈ results.getD p ∅ ∨
      ∃ n, nodes[p]? = some n ∧ ∃ e ∈ n.edges, o ∈ passed i results e := by
  by_cases hp : p < nodes.length
  · have hr : p < results.length := by omega
    have hm : p < (round i nodes results).length := by rw [length_round h]; exact hp
    rw [List.getD_eq_getElem _ _ hm, List.getD_eq_getElem _ _ hr, List.getElem?_eq_getElem hp]
    simp only [round, List.getElem_map, List.getElem_zip, mem_gain, Option.some.injEq,
      exists_eq_left']
  · have hn : nodes[p]? = none := List.getElem?_eq_none (by omega)
    have hr : results.getD p ∅ = ∅ := List.getD_eq_default _ _ (by omega)
    have hm : (round i nodes results).getD p ∅ = ∅ :=
      List.getD_eq_default _ _ (by rw [length_round h]; omega)
    rw [hr, hm, hn]
    simp

/-- The results after a number of rounds. -/
def after (i : Index) (nodes : List Node) (k : Nat) : List NameSet :=
  (round i nodes)^[k] (nodes.map (·.raised))

theorem after_succ (k : Nat) : after i nodes (k+1) = round i nodes (after i nodes k) :=
  Function.iterate_succ_apply' _ _ _

theorem length_after (k : Nat) : (after i nodes k).length = nodes.length := by
  induction k with
  | zero => simp [after]
  | succ k ih => rw [after_succ, length_round ih]

theorem mem_after_succ {k p : Nat} :
    o ∈ (after i nodes (k+1)).getD p ∅ ↔ o ∈ (after i nodes k).getD p ∅ ∨
      ∃ n, nodes[p]? = some n ∧ ∃ e ∈ n.edges, o ∈ passed i (after i nodes k) e := by
  rw [after_succ, mem_round (length_after k)]

/- Stopping early loses nothing: a round that changes nothing would change nothing again. -/
theorem rounds_eq_iterate (n : Nat) (results : List NameSet) :
    rounds i nodes n results = (round i nodes)^[n] results := by
  induction n generalizing results with
  | zero => rfl
  | succ n ih =>
    rw [rounds, Function.iterate_succ_apply]
    split
    · next h => rw [h, Function.iterate_fixed h]
    · exact ih _

theorem outcomes_eq_after : outcomes i nodes = after i nodes nodes.length :=
  rounds_eq_iterate _ _

theorem raises_of_mem_after {k p : Nat} (h : o ∈ (after i nodes k).getD p ∅) :
    Raises i nodes o p := by
  induction k generalizing p with
  | zero =>
    rw [after, Function.iterate_zero_apply, List.getD_eq_getElem?_getD, List.getElem?_map] at h
    cases hn : nodes[p]? with
    | none => rw [hn] at h; exact absurd h (NameSet.not_mem_empty o)
    | some n => rw [hn] at h; exact .own hn h
  | succ k ih =>
    rcases mem_after_succ.mp h with h | ⟨n, hn, e, he, h⟩
    · exact ih h
    · obtain ⟨pass, ⟨q, hq, h⟩ | ⟨s, hs, h⟩⟩ := mem_passed.mp h
      · exact .call hn he hq pass (ih h)
      · exact .settled hn he hs pass h

/-- The nodes that have an exception. -/
def holders (o : String) (results : List NameSet) : Finset Nat :=
  (Finset.range results.length).filter fun p => o ∈ results.getD p ∅

theorem mem_holders {p : Nat} : p ∈ holders o results ↔ o ∈ results.getD p ∅ := by
  unfold holders
  rw [Finset.mem_filter, Finset.mem_range, and_iff_right_iff_imp]
  intro h
  by_contra hp
  rw [List.getD_eq_default _ _ (by omega)] at h
  exact NameSet.not_mem_empty o h

theorem holders_after_subset (k : Nat) :
    holders o (after i nodes k) ⊆ holders o (after i nodes (k+1)) := by
  intro p hp
  exact mem_holders.mpr (mem_after_succ.mpr (Or.inl (mem_holders.mp hp)))

theorem passed_congr {rs ss : List NameSet} (h : holders o rs = holders o ss) {e : Edge} :
    o ∈ passed i rs e ↔ o ∈ passed i ss e := by
  have hq (q : Nat) : o ∈ rs.getD q ∅ ↔ o ∈ ss.getD q ∅ := by
    rw [← mem_holders, h, mem_holders]
  simp only [mem_passed, hq]

theorem holders_after_fixed {k : Nat}
    (h : holders o (after i nodes k) = holders o (after i nodes (k+1))) :
    holders o (after i nodes (k+1)) = holders o (after i nodes (k+2)) := by
  ext p
  have hp := Finset.ext_iff.mp h p
  simp only [mem_holders] at hp ⊢
  rw [mem_after_succ (k := k+1), mem_after_succ (k := k), hp, mem_after_succ (k := k)]
  simp only [passed_congr h, or_assoc, or_self]

theorem holders_after_length :
    holders o (after i nodes (nodes.length+1)) = holders o (after i nodes nodes.length) := by
  have hstep (k : Nat) (hk : (holders o (after i nodes k)).card =
      (holders o (after i nodes (k+1))).card) :
      holders o (after i nodes k) = holders o (after i nodes (k+1)) :=
    Finset.eq_of_subset_of_card_le (holders_after_subset k) hk.ge
  have hcard : (holders o (after i nodes (nodes.length+1))).card =
      (holders o (after i nodes nodes.length)).card := by
    apply Nat.stabilises_of_monotone (f := fun k => (holders o (after i nodes k)).card)
    · exact monotone_nat_of_le_succ fun k => Finset.card_le_card (holders_after_subset k)
    · intro k
      calc (holders o (after i nodes k)).card
          ≤ (Finset.range (after i nodes k).length).card :=
            Finset.card_le_card (Finset.filter_subset _ _)
        _ = nodes.length := by rw [Finset.card_range, length_after]
    · intro k hk
      exact congrArg Finset.card (holders_after_fixed (hstep k hk))
    · omega
  exact (hstep _ hcard.symm).symm

theorem mem_after_of_raises {p : Nat} (h : Raises i nodes o p) :
    o ∈ (after i nodes nodes.length).getD p ∅ := by
  have last {p : Nat} (hp : o ∈ (after i nodes (nodes.length+1)).getD p ∅) :
      o ∈ (after i nodes nodes.length).getD p ∅ := by
    rw [← mem_holders] at hp ⊢
    rwa [← holders_after_length]
  induction h with
  | @own p n hn ho =>
    have start : o ∈ (after i nodes 0).getD p ∅ := by
      rw [after, Function.iterate_zero_apply, List.getD_eq_getElem?_getD, List.getElem?_map, hn]
      exact ho
    have grow (k : Nat) : p ∈ holders o (after i nodes k) := by
      induction k with
      | zero => exact mem_holders.mpr start
      | succ k ih => exact holders_after_subset k ih
    exact mem_holders.mp (grow _)
  | settled hn he hs pass ho =>
    exact last (mem_after_succ.mpr (Or.inr ⟨_, hn, _, he, mem_passed.mpr ⟨pass, Or.inr ⟨_, hs, ho⟩⟩⟩))
  | call hn he hq pass _ ih =>
    exact last (mem_after_succ.mpr (Or.inr ⟨_, hn, _, he, mem_passed.mpr ⟨pass, Or.inl ⟨_, hq, ih⟩⟩⟩))

/-- The outcomes of a graph are exactly what its calls bring about. -/
theorem mem_outcomes {p : Nat} : o ∈ (outcomes i nodes).getD p ∅ ↔ Raises i nodes o p := by
  rw [outcomes_eq_after]
  exact ⟨raises_of_mem_after, mem_after_of_raises⟩

theorem length_outcomes : (outcomes i nodes).length = nodes.length := by
  rw [outcomes_eq_after, length_after]

end ContractAudit.Throws.Graph
