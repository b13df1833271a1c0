import ContractAudit.Proofs.NameUse
import ContractAudit.Proofs.TreePlaces

/-! The parts of what the walk comes to. Main statements: the walk through a body goes through each
of its nodes, so whatever a node has below it is on the walk too; and a class whose object is thrown
is among the names of the body. -/
namespace ContractAudit

/-- What the walk comes to below a node. -/
def Visit.below : Visit → List Visit
  | .type t => t.inner
  | .method m => m.inner
  | .block b => b.inner
  | .stmt s => s.inner
  | .catchClause k => k.inner
  | .expr e => e.inner
  | .classRef r => r.inner

/-- The nodes have among them all that is below them. -/
def Closed (vs : List Visit) : Prop := ∀ v ∈ vs, ∀ u ∈ v.below, u ∈ vs

namespace Walks
variable {v : Visit} {vs ws ws' : List Visit}

theorem children (h : Walks [v] (v :: ws)) : Walks v.children ws := by
  generalize hus : v :: ws = us at h
  cases h with
  | cons hbelow hafter =>
    cases hafter
    rw [List.append_nil, List.cons.injEq] at hus
    exact hus.2 ▸ hbelow

theorem unique (h : Walks vs ws) (h' : Walks vs ws') : ws = ws' := by
  induction h generalizing ws' with
  | nil =>
    cases h'
    rfl
  | cons _ _ ihbelow ihafter =>
    cases h' with
    | cons hbelow hafter => rw [ihbelow hbelow, ihafter hafter]

/- A node on a walk is walked through there. -/
theorem within (h : Walks vs ws) (hv : v ∈ ws) :
    ∃ us, Walks v.children us ∧ ∀ u ∈ us, u ∈ ws := by
  induction h with
  | nil => cases hv
  | @cons x xs below after hbelow hafter ihbelow ihafter =>
    rcases List.mem_cons.mp hv with rfl | hv
    · exact ⟨below, hbelow, fun u hu => List.mem_cons_of_mem _ (List.mem_append_left _ hu)⟩
    · rcases List.mem_append.mp hv with hv | hv
      · obtain ⟨us, hus, hin⟩ := ihbelow hv
        exact ⟨us, hus, fun u hu => List.mem_cons_of_mem _ (List.mem_append_left _ (hin u hu))⟩
      · obtain ⟨us, hus, hin⟩ := ihafter hv
        exact ⟨us, hus, fun u hu => List.mem_cons_of_mem _ (List.mem_append_right _ (hin u hu))⟩

end Walks

theorem MethodDecl.walks_list (ms : List MethodDecl) :
    Walks (ms.map .method) (ms.flatMap fun m => .method m :: m.inner) := by
  induction ms with
  | nil => exact .nil
  | cons m ms ih => exact .cons (v := .method m) m.walks ih

theorem Visit.walks (v : Visit) : Walks v.children v.below := by
  cases v with
  | type t => exact MethodDecl.walks_list t.methods
  | method m => exact m.walks
  | block b => exact b.walks.children
  | stmt s => exact s.walks.children
  | catchClause k => exact k.walks
  | expr e => exact e.walks.children
  | classRef r => exact r.walks.children

theorem Walks.closed {vs ws : List Visit} (h : Walks vs ws) : Closed ws := by
  intro v hv u hu
  obtain ⟨us, hus, hin⟩ := h.within hv
  rw [v.walks.unique hus] at hu
  exact hin u hu

/-- What a throw on the walk throws. -/
def thrown? : Visit → Option Expr
  | .stmt (.throwing _ e) | .expr (.throwing _ e) => some e
  | _ => none

theorem mem_below_of_thrown? {v : Visit} {e : Expr} (h : thrown? v = some e) :
    .expr e ∈ v.below := by
  unfold thrown? at h
  split at h <;> cases h
  · exact List.mem_cons_self
  · exact List.mem_cons_self

theorem Block.name_of_thrown? {b : Block} {v : Visit} (hv : v ∈ b.inner) {span : Source.Span}
    {n : Name} {args : List Arg} (h : thrown? v = some (.new span (.named n) args)) :
    .ofClass n ∈ b.names := by
  have hclosed := b.walks.closed
  have hmade := hclosed v (List.mem_cons_of_mem _ hv) _ (mem_below_of_thrown? h)
  exact b.listed n (hclosed _ hmade _ List.mem_cons_self)

end ContractAudit
