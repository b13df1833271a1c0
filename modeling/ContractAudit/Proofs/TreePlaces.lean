import ContractAudit.Syntax.Walk

/-! The places of a tree. A node is found by the way down to it, so that equal nodes at two places
count twice. Main statement: the walk through a method comes to each place of its tree once, and to
no place before the one above it. -/
namespace ContractAudit

def Item.nodes (i : Item) : List Visit := i.key.toList.map .expr ++ [.expr i.value]

def Arg.nodes (a : Arg) : List Visit := [.expr a.value]

def Arm.nodes : Arm → List Visit
  | .cases es b => es.map .expr ++ [.expr b]
  | .default b => [.expr b]

def Member.nodes : Member → List Visit
  | .ident _ => []
  | .dynamic e => [.expr e]

def ClassRef.children : ClassRef → List Visit
  | .dynamic e => [.expr e]
  | .named _ | .selfRef _ | .staticRef _ | .parentRef _ | .anonymous _ => []

def Expr.children : Expr → List Visit
  | .var .. | .literal .. | .name .. | .closure .. => []
  | .varVar _ e | .unary _ _ e | .cast _ _ e | .word _ _ e | .throwing _ e => [.expr e]
  | .items _ _ is => is.flatMap Item.nodes
  | .new _ r as => [.classRef r] ++ as.flatMap Arg.nodes
  | .methodCall _ t m as _ _ => [.expr t] ++ m.nodes ++ as.flatMap Arg.nodes
  | .staticCall _ r m as _ => [.classRef r] ++ m.nodes ++ as.flatMap Arg.nodes
  | .call _ f as => [.expr f] ++ as.flatMap Arg.nodes
  | .property _ t m _ => [.expr t] ++ m.nodes
  | .staticProperty _ r _ | .classConst _ r _ => [.classRef r]
  | .index _ t i => [.expr t] ++ i.toList.map .expr
  | .assign _ _ a b | .binary _ _ a b => [.expr a, .expr b]
  | .ternary _ b y n => [.expr b] ++ y.toList.map .expr ++ [.expr n]
  | .instanceOf _ e r => [.expr e, .classRef r]
  | .isset _ es => es.map .expr
  | .yielding _ k v _ => k.toList.map .expr ++ v.toList.map .expr
  | .matching _ e arms => [.expr e] ++ arms.flatMap Arm.nodes

def StaticVar.nodes (v : StaticVar) : List Visit := v.start.toList.map .expr

def ElseIf.nodes (e : ElseIf) : List Visit := [.expr e.cond, .stmt e.body]

def Case.nodes (k : Case) : List Visit := k.label.toList.map .expr ++ k.body.map .stmt

def Stmt.children : Stmt → List Visit
  | .expr e => [.expr e]
  | .block b => [.block b]
  | .returning _ v => v.toList.map .expr
  | .throwing _ v => [.expr v]
  | .ifElse _ e y es n =>
    [.expr e, .stmt y] ++ es.flatMap ElseIf.nodes ++ n.toList.map .stmt
  | .whileLoop _ e b => [.expr e, .stmt b]
  | .doWhile _ b e => [.stmt b, .expr e]
  | .forLoop _ i e n b => i.map .expr ++ e.map .expr ++ n.map .expr ++ [.stmt b]
  | .foreach _ e k v b => [.expr e] ++ k.toList.map .expr ++ [.expr v, .stmt b]
  | .switch _ e ks => [.expr e] ++ ks.flatMap Case.nodes
  | .tryCatch _ b ks l => [.block b] ++ ks.map .catchClause ++ l.toList.map .block
  | .echo _ es | .unset _ es => es.map .expr
  | .staticVars _ vs => vs.flatMap StaticVar.nodes
  | .globals .. | .jump .. | .declaration .. | .nop .. => []

def Block.children (b : Block) : List Visit := b.statements.map .stmt

def Catch.children (k : Catch) : List Visit := [.block k.body]

def MethodDecl.children (m : MethodDecl) : List Visit :=
  m.params.flatMap (fun p => p.default.toList.map .expr) ++ m.body.toList.map .block

def TypeDecl.children (t : TypeDecl) : List Visit := t.methods.map .method

namespace Visit

def children : Visit → List Visit
  | .type t => t.children
  | .method m => m.children
  | .block b => b.children
  | .stmt s => s.children
  | .catchClause k => k.children
  | .expr e => e.children
  | .classRef r => r.children

/-- The node at a place, which says for each step down the number of the child to go to. -/
def at? (v : Visit) : List Nat → Option Visit
  | [] => some v
  | i :: p => v.children[i]?.bind (·.at? p)

/-- The visits go through the whole tree of a node: `places` are all the places of the tree, each
of them once, the visits are the nodes at these places, and no place comes before one above it. -/
structure Through (v : Visit) (places : List (List Nat)) (visits : List Visit) : Prop where
  nodes : places.map v.at? = visits.map some
  all : ∀ p, (v.at? p).isSome → p ∈ places
  once : places.Nodup
  parent_first : places.Pairwise fun p q => ¬ q <+: p

end Visit

/-- A walk through a row of trees: each node, then what is below it, then what comes after it. -/
inductive Walks : List Visit → List Visit → Prop where
  | nil : Walks [] []
  | cons {v : Visit} {vs below after : List Visit} (hbelow : Walks v.children below)
      (hafter : Walks vs after) : Walks (v :: vs) (v :: (below ++ after))

namespace Walks
variable {vs vs' ws ws' : List Visit} {v : Visit}

theorem append (h : Walks vs ws) (h' : Walks vs' ws') : Walks (vs ++ vs') (ws ++ ws') := by
  induction h with
  | nil => exact h'
  | cons hbelow _ _ ih =>
    rw [List.cons_append, List.cons_append, List.append_assoc]
    exact .cons hbelow ih

theorem node (h : Walks v.children ws) : Walks [v] (v :: ws) := by
  rw [← List.append_nil ws]
  exact .cons h .nil

end Walks

mutual

theorem Expr.walks (e : Expr) : Walks [.expr e] (.expr e :: e.inner) := by
  refine .node (v := .expr e) ?_
  change Walks e.children e.inner
  cases e with
  | var | literal | name | closure => exact .nil
  | varVar _ e | unary _ _ e | cast _ _ e | word _ _ e | throwing _ e => exact e.walks
  | items _ _ is => exact Expr.walks_items is
  | new _ r as => exact r.walks.append (Expr.walks_args as)
  | methodCall _ t m as => exact (t.walks.append m.walks).append (Expr.walks_args as)
  | staticCall _ r m as => exact (r.walks.append m.walks).append (Expr.walks_args as)
  | call _ f as => exact f.walks.append (Expr.walks_args as)
  | property _ t m => exact t.walks.append m.walks
  | staticProperty _ r | classConst _ r => exact r.walks
  | index _ t i => exact t.walks.append (Expr.walks_option i)
  | assign _ _ a b | binary _ _ a b => exact a.walks.append b.walks
  | ternary _ b y n => exact (b.walks.append (Expr.walks_option y)).append n.walks
  | instanceOf _ e r => exact e.walks.append r.walks
  | isset _ es => exact Expr.walks_list es
  | yielding _ k v => exact (Expr.walks_option k).append (Expr.walks_option v)
  | matching _ e arms => exact e.walks.append (Expr.walks_arms arms)

theorem Expr.walks_option (e : Option Expr) : Walks (e.toList.map .expr) (Expr.innerOption e) := by
  cases e with
  | none => exact .nil
  | some e => exact e.walks

theorem Expr.walks_list (es : List Expr) : Walks (es.map .expr) (Expr.innerList es) := by
  cases es with
  | nil => exact .nil
  | cons e es => exact e.walks.append (Expr.walks_list es)

theorem Expr.walks_items (is : List Item) : Walks (is.flatMap Item.nodes) (Expr.innerItems is) := by
  cases is with
  | nil => exact .nil
  | cons i is => exact i.walks.append (Expr.walks_items is)

theorem Item.walks (i : Item) : Walks i.nodes i.inner := by
  cases i with
  | mk k v => exact (Expr.walks_option k).append v.walks

theorem Expr.walks_args (as : List Arg) : Walks (as.flatMap Arg.nodes) (Expr.innerArgs as) := by
  cases as with
  | nil => exact .nil
  | cons a as => exact a.walks.append (Expr.walks_args as)

theorem Arg.walks (a : Arg) : Walks a.nodes a.inner := by
  cases a with
  | mk _ v => exact v.walks

theorem Expr.walks_arms (as : List Arm) : Walks (as.flatMap Arm.nodes) (Expr.innerArms as) := by
  cases as with
  | nil => exact .nil
  | cons a as => exact a.walks.append (Expr.walks_arms as)

theorem Arm.walks (a : Arm) : Walks a.nodes a.inner := by
  cases a with
  | cases es b => exact (Expr.walks_list es).append b.walks
  | default b => exact b.walks

theorem Member.walks (m : Member) : Walks m.nodes m.inner := by
  cases m with
  | ident => exact .nil
  | dynamic e => exact e.walks

theorem ClassRef.walks (r : ClassRef) : Walks [.classRef r] (.classRef r :: r.inner) := by
  refine .node (v := .classRef r) ?_
  change Walks r.children r.inner
  cases r with
  | dynamic e => exact e.walks
  | named | selfRef | staticRef | parentRef | anonymous => exact .nil

end

theorem StaticVar.walks (vs : List StaticVar) :
    Walks (vs.flatMap StaticVar.nodes) (vs.flatMap StaticVar.inner) := by
  induction vs with
  | nil => exact .nil
  | cons v vs ih => exact (Expr.walks_option v.start).append ih

mutual

theorem Stmt.walks (s : Stmt) : Walks [.stmt s] (.stmt s :: s.inner) := by
  refine .node (v := .stmt s) ?_
  change Walks s.children s.inner
  cases s with
  | expr e | throwing _ e => exact e.walks
  | block b => exact b.walks
  | returning _ v => exact Expr.walks_option v
  | ifElse _ e y es n =>
    exact e.walks.append ((y.walks.append (Stmt.walks_elseIfs es)).append (Stmt.walks_option n))
  | whileLoop _ e b => exact e.walks.append b.walks
  | doWhile _ b e => exact b.walks.append e.walks
  | forLoop _ i e n b =>
    exact (((Expr.walks_list i).append (Expr.walks_list e)).append (Expr.walks_list n)).append
      b.walks
  | foreach _ e k v b =>
    exact (e.walks.append (Expr.walks_option k)).append (v.walks.append b.walks)
  | switch _ e ks => exact e.walks.append (Stmt.walks_cases ks)
  | tryCatch _ b ks l =>
    exact (b.walks.append (Stmt.walks_catches ks)).append (Block.walks_option l)
  | echo _ es | unset _ es => exact Expr.walks_list es
  | staticVars _ vs => exact StaticVar.walks vs
  | globals | jump | declaration | nop => exact .nil

theorem Stmt.walks_option (s : Option Stmt) : Walks (s.toList.map .stmt) (Stmt.innerOption s) := by
  cases s with
  | none => exact .nil
  | some s => exact s.walks

theorem Stmt.walks_list (ss : List Stmt) : Walks (ss.map .stmt) (Stmt.innerList ss) := by
  cases ss with
  | nil => exact .nil
  | cons s ss => exact s.walks.append (Stmt.walks_list ss)

theorem Stmt.walks_elseIfs (es : List ElseIf) :
    Walks (es.flatMap ElseIf.nodes) (Stmt.innerElseIfs es) := by
  cases es with
  | nil => exact .nil
  | cons e es => exact e.walks.append (Stmt.walks_elseIfs es)

theorem ElseIf.walks (e : ElseIf) : Walks e.nodes e.inner := by
  cases e with
  | mk e b => exact e.walks.append b.walks

theorem Stmt.walks_cases (ks : List Case) : Walks (ks.flatMap Case.nodes) (Stmt.innerCases ks) := by
  cases ks with
  | nil => exact .nil
  | cons k ks => exact k.walks.append (Stmt.walks_cases ks)

theorem Case.walks (k : Case) : Walks k.nodes k.inner := by
  cases k with
  | mk l b => exact (Expr.walks_option l).append (Stmt.walks_list b)

theorem Stmt.walks_catches (ks : List Catch) :
    Walks (ks.map .catchClause) (Stmt.innerCatches ks) := by
  cases ks with
  | nil => exact .nil
  | cons k ks => exact .cons (v := .catchClause k) k.walks (Stmt.walks_catches ks)

theorem Catch.walks (k : Catch) : Walks k.children k.inner := by
  cases k with
  | mk _ _ _ b => exact b.walks

theorem Block.walks_option (b : Option Block) :
    Walks (b.toList.map .block) (Block.innerOption b) := by
  cases b with
  | none => exact .nil
  | some b => exact b.walks

theorem Block.walks (b : Block) : Walks [.block b] (.block b :: b.inner) := by
  refine .node (v := .block b) ?_
  change Walks b.children b.inner
  cases b with
  | mk _ ss => exact Stmt.walks_list ss

end

theorem Param.walks (ps : List Param) :
    Walks (ps.flatMap fun p => p.default.toList.map .expr)
      (ps.flatMap fun p => Expr.innerOption p.default) := by
  induction ps with
  | nil => exact .nil
  | cons p ps ih => exact (Expr.walks_option p.default).append ih

theorem MethodDecl.walks (m : MethodDecl) : Walks m.children m.inner :=
  (Param.walks m.params).append (Block.walks_option m.body)

section
variable {v : Visit} {vs : List Visit} {below after : List (Nat × List Nat)}

/-- The node at a place in a row of trees. -/
def nodeAt? (vs : List Visit) (p : Nat × List Nat) : Option Visit := vs[p.1]?.bind (·.at? p.2)

/-- The places of a row of trees, `below` being those under the root of the first tree and `after`
those in the row behind it. -/
def rowPlaces (below after : List (Nat × List Nat)) : List (Nat × List Nat) :=
  (0, []) :: (below.map (fun p => (0, p.1 :: p.2)) ++ after.map fun p => (p.1 + 1, p.2))

theorem map_rowPlaces (v : Visit) (vs : List Visit) (below after : List (Nat × List Nat)) :
    (rowPlaces below after).map (nodeAt? (v :: vs)) =
      some v :: (below.map (nodeAt? v.children) ++ after.map (nodeAt? vs)) := by
  rw [rowPlaces, List.map_cons, List.map_append, List.map_map, List.map_map]
  rfl

theorem mem_rowPlaces (hbelow : ∀ p, (nodeAt? v.children p).isSome → p ∈ below)
    (hafter : ∀ p, (nodeAt? vs p).isSome → p ∈ after) (p : Nat × List Nat)
    (h : (nodeAt? (v :: vs) p).isSome) : p ∈ rowPlaces below after := by
  obtain ⟨_ | i, p⟩ := p
  · cases p with
    | nil => exact List.mem_cons_self
    | cons j p =>
      refine List.mem_cons_of_mem _ (List.mem_append_left _ ?_)
      exact List.mem_map.mpr ⟨(j, p), hbelow (j, p) h, rfl⟩
  · refine List.mem_cons_of_mem _ (List.mem_append_right _ ?_)
    exact List.mem_map.mpr ⟨(i, p), hafter (i, p) h, rfl⟩

/-- No place comes before one above it. -/
def Descending (places : List (Nat × List Nat)) : Prop :=
  places.Pairwise fun p q => ¬ (q.1 = p.1 ∧ q.2 <+: p.2)

theorem descending_rowPlaces (hbelow : Descending below) (hafter : Descending after) :
    Descending (rowPlaces below after) := by
  refine List.pairwise_cons.mpr ⟨?_, List.pairwise_append.mpr ⟨?_, ?_, ?_⟩⟩
  · simp only [List.mem_append, List.mem_map]
    rintro _ (⟨p, -, rfl⟩ | ⟨p, -, rfl⟩) <;> simp
  · exact List.pairwise_map.mpr (hbelow.imp (by simp [List.cons_prefix_cons]))
  · exact List.pairwise_map.mpr (hafter.imp (by simp))
  · simp only [List.mem_map]
    rintro _ ⟨p, -, rfl⟩ _ ⟨q, -, rfl⟩
    simp

theorem Walks.exists_places {ws : List Visit} (h : Walks vs ws) :
    ∃ places, places.map (nodeAt? vs) = ws.map some ∧
      (∀ p, (nodeAt? vs p).isSome → p ∈ places) ∧ Descending places := by
  induction h with
  | nil => exact ⟨[], rfl, by simp [nodeAt?], .nil⟩
  | @cons v vs _ _ _ _ ihbelow ihafter =>
    obtain ⟨below, hbelow, hbelowall, hbelowdown⟩ := ihbelow
    obtain ⟨after, hafter, hafterall, hafterdown⟩ := ihafter
    refine ⟨rowPlaces below after, ?_, mem_rowPlaces hbelowall hafterall,
      descending_rowPlaces hbelowdown hafterdown⟩
    rw [map_rowPlaces, hbelow, hafter, List.map_cons, List.map_append]

end

theorem Visit.exists_through {v : Visit} {ws : List Visit} (h : Walks v.children ws) :
    ∃ places, v.Through places (v :: ws) := by
  obtain ⟨below, hnodes, hall, hdown⟩ := h.exists_places
  let places : List (List Nat) := [] :: below.map fun p => p.1 :: p.2
  have hfirst : places.Pairwise fun p q => ¬ q <+: p := by
    refine List.pairwise_cons.mpr ⟨?_, List.pairwise_map.mpr (hdown.imp ?_)⟩
    · simp only [List.mem_map]
      rintro _ ⟨p, -, rfl⟩
      simp
    · simp [List.cons_prefix_cons]
  refine ⟨places, ?_, ?_, hfirst.imp ?_, hfirst⟩
  · rw [List.map_cons, List.map_map, List.map_cons, ← hnodes]
    rfl
  · intro p hp
    cases p with
    | nil => exact List.mem_cons_self
    | cons i p =>
      exact List.mem_cons_of_mem _ (List.mem_map.mpr ⟨(i, p), hall (i, p) hp, rfl⟩)
  · rintro p _ habove rfl
    exact habove (List.prefix_refl p)

/-- The walk through a method, from the method itself through the defaults of its parameters and its
body, comes to every node of its tree once, and to none before the one above it. -/
theorem MethodDecl.walk_through (m : MethodDecl) :
    ∃ places, (Visit.method m).Through places (.method m :: m.inner) :=
  Visit.exists_through m.walks

end ContractAudit
