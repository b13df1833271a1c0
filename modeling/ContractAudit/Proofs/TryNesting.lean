import ContractAudit.Proofs.Knowledge
import ContractAudit.Proofs.StepSources
import Mathlib.Data.List.Forall2

/-! What is around the nodes and the steps of a body. Main statement: the stretches of a body come
to the nodes of the walk. What is caught around a node is what the try statements catch whose bodies
the walk is in, and on the way the variables of the clauses around a place are those that a throw
there can mean. -/
namespace ContractAudit.Throws

/-- The clause, if it binds a variable. -/
def Around.binder? : Around → Option Catch
  | body _ => none
  | clause k => if k.var.isSome then some k else none

/-- The clauses around a place that bind a variable, the innermost first. -/
def bindersOf (as : List Around) : List Catch := (as.filterMap Around.binder?).reverse

/-- Steps one after the other, each with what is known before it. -/
def trace (s : Setting) : List (Amid Step) → Known → List (Amid Step × Known)
  | [], _ => []
  | x :: xs, k => (x, k) :: trace s xs (x.what.learn s k)

/-- What is known after the last step. -/
def learnAll (s : Setting) (xs : List (Amid Step)) (k : Known) : Known :=
  xs.foldl (fun k x => x.what.learn s k) k

theorem trace_append (s : Setting) (xs ys : List (Amid Step)) (k : Known) :
    trace s (xs ++ ys) k = trace s xs k ++ trace s ys (learnAll s xs k) := by
  induction xs generalizing k with
  | nil => rfl
  | cons x xs ih => exact congrArg _ (ih _)

theorem map_fst_trace (s : Setting) (xs : List (Amid Step)) (k : Known) :
    (trace s xs k).map (·.1) = xs := by
  induction xs generalizing k with
  | nil => rfl
  | cons x xs ih => exact congrArg _ (ih _)

/-- The variables are those of the clauses, each with the types of its clause or none. -/
def Binds (vars : List CatchVar) (ks : List Catch) : Prop :=
  List.Forall₂ (fun v k => k.var = some v.name ∧ ∀ types ∈ v.types, types = k.types.map (·.full))
    vars ks

namespace Binds
variable {s : Setting} {k : Known} {ks : List Catch} {vars : List CatchVar} {step : Step}

theorem forget (h : Binds vars ks) (var : String) :
    Binds (vars.map fun v => if v.name = var then { v with types := none } else v) ks := by
  refine List.forall₂_map_left_iff.mpr (h.imp ?_)
  intro v k hv
  split
  · exact ⟨hv.1, by simp⟩
  · exact hv

theorem assign (h : Binds k.catchVars ks) (var : String) (op : AssignOp) (value : Expr) :
    Binds ((Step.assign var op value).learn s k).catchVars ks := by
  have hvars : ((Step.assign var op value).learn s k).catchVars =
      k.catchVars.map fun v => if v.name = var then { v with types := none } else v := by
    simp only [Step.learn, Step.run, Scan.assignTo]
    split <;> rfl
  rw [hvars]
  exact h.forget var

theorem loop (h : Binds k.catchVars ks) (t : Expr) :
    Binds ((Step.loop t).learn s k).catchVars ks := by
  cases t with
  | var _ var => exact h.forget var
  | _ => exact h

/- Only clauses add variables and take them away. -/
theorem learn (h : Binds k.catchVars ks) (hstep : step.isClausal = false) :
    Binds (step.learn s k).catchVars ks := by
  cases step with
  | raise => rwa [learn_raise]
  | call => rwa [learn_call]
  | callStatic => rwa [learn_callStatic]
  | assign var op value => exact h.assign var op value
  | loop t => exact h.loop t
  | bound => exact h
  | enter | leave => cases hstep

end Binds

theorem bindersOf_append_one (as : List Around) (a : Around) :
    bindersOf (as ++ [a]) = a.binder?.toList ++ bindersOf as := by
  cases h : a.binder? <;> simp [bindersOf, h]

theorem mem_of_bindersOf {as : List Around} {k : Catch} (h : k ∈ bindersOf as) :
    .clause k ∈ as := by
  obtain ⟨a, ha, hk⟩ := List.mem_filterMap.mp (List.mem_reverse.mp h)
  cases a with
  | body ks => cases hk
  | clause k' =>
    rw [Around.binder?] at hk
    split at hk
    · cases hk
      exact ha
    · cases hk

/-- From a place within the first clauses the steps lead to one within the second, and wherever a
step is taken the variables are those of the clauses around it. -/
def Threads (ks : List Catch) (xs : List (Amid Step)) (ks' : List Catch) : Prop :=
  ∀ s k, Binds k.catchVars ks →
    (∀ y ∈ trace s xs k, Binds y.2.catchVars (bindersOf y.1.around)) ∧
      Binds (learnAll s xs k).catchVars ks'

namespace Threads
variable {ks ks' ks'' : List Catch} {xs ys : List (Amid Step)} {as : List Around} {step : Step}

theorem nil (ks : List Catch) : Threads ks [] ks := by
  intro s k h
  exact ⟨fun y hy => absurd hy List.not_mem_nil, h⟩

theorem append (h : Threads ks xs ks') (h' : Threads ks' ys ks'') :
    Threads ks (xs ++ ys) ks'' := by
  intro s k hk
  obtain ⟨hxs, hk'⟩ := h s k hk
  obtain ⟨hys, hk''⟩ := h' s _ hk'
  constructor
  · intro y hy
    rw [trace_append] at hy
    exact (List.mem_append.mp hy).elim (hxs y) (hys y)
  · rw [learnAll, List.foldl_append]
    exact hk''

theorem single
    (h : ∀ s k, Binds k.catchVars (bindersOf as) → Binds (step.learn s k).catchVars ks') :
    Threads (bindersOf as) [⟨as, step⟩] ks' := by
  intro s k hk
  refine ⟨fun y hy => ?_, h s k hk⟩
  rw [List.mem_singleton.mp hy]
  exact hk

/- Steps within a part of a body leave the variables of the clauses around. -/
theorem kept (as : List Around) {steps : List Step}
    (h : ∀ step ∈ steps, step.isClausal = false) :
    Threads (bindersOf as) (steps.map (⟨as, ·⟩)) (bindersOf as) := by
  induction steps with
  | nil => exact nil _
  | cons step steps ih =>
    have hstep : Threads (bindersOf as) [⟨as, step⟩] (bindersOf as) :=
      single fun _ _ hk => hk.learn (h step List.mem_cons_self)
    exact hstep.append (ih fun step' hstep' => h step' (List.mem_cons_of_mem _ hstep'))

/- The start of a clause adds its variable, the end takes it away. -/
theorem enter (as : List Around) (k : Catch) : Threads (bindersOf as)
    ((Stretch.enter k).steps.map (⟨as, ·⟩)) (bindersOf (as ++ [.clause k])) := by
  rw [bindersOf_append_one]
  cases hvar : k.var with
  | none =>
    simp only [Stretch.steps, Around.binder?, hvar]
    exact nil _
  | some var =>
    simp only [Stretch.steps, Around.binder?, hvar]
    refine single fun s known hk => ?_
    exact .cons ⟨hvar, by simp⟩ hk

theorem leave (as : List Around) (k : Catch) : Threads (bindersOf (as ++ [.clause k]))
    ((Stretch.leave k).steps.map (⟨as ++ [.clause k], ·⟩)) (bindersOf as) := by
  cases hvar : k.var with
  | none =>
    rw [bindersOf_append_one]
    simp only [Stretch.steps, Around.binder?, hvar]
    exact nil _
  | some var =>
    simp only [Stretch.steps, hvar]
    refine single fun s known hk => ?_
    rw [bindersOf_append_one] at hk
    simp only [Around.binder?, hvar] at hk
    obtain ⟨v, rest, _, hrest, hvars⟩ := List.forall₂_cons_right_iff.mp hk
    change Binds known.catchVars.tail _
    rw [hvars]
    exact hrest

end Threads

/-- The types that are caught after these nodes of a walk, those of the outermost statement first.
The body of a try statement is what the walk comes to next, and the clauses catch until its end. -/
def caughtAfter : List Visit → List String
  | [] => []
  | v :: vs =>
    match tried? v with
    | some (b, ks) => (if vs.length ≤ b.inner.length then caughtBy ks else []) ++ caughtAfter vs
    | none => caughtAfter vs

theorem caughtAfter_cons {v : Visit} (hv : tried? v = none) (vs : List Visit) :
    caughtAfter (v :: vs) = caughtAfter vs := by
  rw [caughtAfter, hv]

section
variable {span : Source.Span} {b : Block} {ks : List Catch} {last : Option Block} {vs : List Visit}

theorem caughtAfter_open (h : vs.length ≤ b.inner.length) :
    caughtAfter (.stmt (.tryCatch span b ks last) :: vs) = caughtBy ks ++ caughtAfter vs := by
  rw [caughtAfter, tried?]
  exact congrArg (· ++ _) (if_pos h)

theorem caughtAfter_closed (h : b.inner.length < vs.length) :
    caughtAfter (.stmt (.tryCatch span b ks last) :: vs) = caughtAfter vs := by
  rw [caughtAfter, tried?]
  exact congrArg (· ++ _) (if_neg (Nat.not_le.mpr h))

end

theorem caughtAfter_plain {vs : List Visit} (h : ∀ v ∈ vs, tried? v = none) (rest : List Visit) :
    caughtAfter (vs ++ rest) = caughtAfter rest := by
  induction vs with
  | nil => rfl
  | cons v vs ih =>
    rw [List.cons_append, caughtAfter_cons (h v List.mem_cons_self)]
    exact ih fun u hu => h u (List.mem_cons_of_mem _ hu)

/-- At a place these stretches come to these nodes, and leave the variables of the clauses around as
they are. What is said to be around a node, beyond the place, is: a clause that has it inside, and
the bodies of try statements that the nodes before it open. All these bodies end among the nodes. -/
structure Covers (as : List Around) (xs : List (Amid Stretch)) (vs : List Visit) : Prop where
  nodes : xs.flatMap (·.what.nodes) = vs
  threads : Threads (bindersOf as) (deedsOf xs) (bindersOf as)
  clauses : ∀ x ∈ spotsOf xs, ∀ k, .clause k ∈ x.around →
    .clause k ∈ as ∨ .catchClause k ∈ vs ∧ x.what ∈ k.inner
  bodies : ∀ n x, (spotsOf xs)[n]? = some x →
    guardsOf x.around = guardsOf as ++ caughtAfter (vs.take n)
  ended : ∀ rest, caughtAfter (vs ++ rest) = caughtAfter rest

namespace Covers
variable {as : List Around} {xs ys : List (Amid Stretch)} {vs vs' : List Visit} {st : Stretch}

theorem nil (as : List Around) : Covers as [] [] :=
  ⟨rfl, .nil _, fun _ hx => absurd hx List.not_mem_nil, by simp [spotsOf], fun _ => rfl⟩

theorem map_what (h : Covers as xs vs) : (spotsOf xs).map (·.what) = vs :=
  (map_what_spotsOf xs).trans h.nodes

theorem node_mem (h : Covers as xs vs) {x : Amid Visit} (hx : x ∈ spotsOf xs) :
    x.what ∈ vs := by
  rw [← h.map_what]
  exact List.mem_map_of_mem hx

theorem length_spotsOf (h : Covers as xs vs) : (spotsOf xs).length = vs.length := by
  rw [← h.map_what, List.length_map]

theorem append (h : Covers as xs vs) (h' : Covers as ys vs') :
    Covers as (xs ++ ys) (vs ++ vs') where
  nodes := by rw [List.flatMap_append, h.nodes, h'.nodes]
  threads := by
    rw [deedsOf_append]
    exact h.threads.append h'.threads
  clauses := by
    intro x hx k hk
    rw [spotsOf_append] at hx
    rcases List.mem_append.mp hx with hx | hx
    · exact (h.clauses x hx k hk).imp_right (.imp_left (List.mem_append_left _))
    · exact (h'.clauses x hx k hk).imp_right (.imp_left (List.mem_append_right _))
  bodies := by
    intro n x hx
    rw [spotsOf_append, List.getElem?_append, h.length_spotsOf] at hx
    split at hx
    next hn =>
      rw [List.take_append_of_le_length (Nat.le_of_lt hn)]
      exact h.bodies n x hx
    next hn => rw [List.take_append, List.take_of_length_le (Nat.not_lt.mp hn), h.ended,
      h'.bodies _ x hx]
  ended := by
    intro rest
    rw [List.append_assoc, h.ended, h'.ended]

/- Nothing beyond the place is around the nodes of one stretch. -/
theorem spotsOf_one (as : List Around) (st : Stretch) :
    spotsOf [⟨as, st⟩] = st.nodes.map (⟨as, ·⟩) := List.flatMap_singleton _ _

/- One stretch that is no part of a try statement. -/
theorem one (as : List Around) (h : Sourced st.nodes st.steps) :
    Covers as [⟨as, st⟩] st.nodes := by
  have haround (x : Amid Visit) (hx : x ∈ spotsOf [⟨as, st⟩]) : x.around = as := by
    rw [spotsOf_one] at hx
    obtain ⟨v, _, rfl⟩ := List.mem_map.mp hx
    rfl
  refine ⟨List.flatMap_singleton _ _, ?_, ?_, ?_, caughtAfter_plain h.plain⟩
  · rw [deedsOf_cons, deedsOf_nil, List.append_nil]
    exact .kept as fun step hstep => h.not_clausal hstep
  · intro x hx k hk
    exact Or.inl (haround x hx ▸ hk)
  · intro n x hx
    have hnone : caughtAfter (st.nodes.take n ++ []) = [] :=
      caughtAfter_plain (fun v hv => h.plain v (List.mem_of_mem_take hv)) []
    rw [List.append_nil] at hnone
    rw [haround x (List.mem_of_getElem? hx), hnone, List.append_nil]

theorem head (as : List Around) {t : Stmt} (ht : tried? (.stmt t) = none) :
    Covers as [⟨as, .stmt t⟩] (.stmt t :: headNodes t) := one as (sourced_head ht)

theorem eval (as : List Around) (e : Expr) : Covers as [⟨as, .eval e⟩] (.expr e :: e.inner) :=
  one as (sourced_expr false e)

theorem evalOption (as : List Around) (e : Option Expr) :
    Covers as (e.toList.map (⟨as, .eval ·⟩)) (Expr.innerOption e) := by
  cases e with
  | none => exact nil as
  | some e => exact eval as e

theorem block (as : List Around) (b : Block) : Covers as [⟨as, .block b⟩] [.block b] :=
  one as (Sourced.nil.node rfl)

/- What the body of a try statement covers, seen from around the statement. -/
theorem body {span : Source.Span} {b : Block} {ks : List Catch} {last : Option Block}
    (h : Covers (as ++ [.body ks]) xs (.block b :: b.inner)) :
    Covers as (⟨as, .stmt (.tryCatch span b ks last)⟩ :: xs)
      (.stmt (.tryCatch span b ks last) :: .block b :: b.inner) where
  nodes := congrArg _ h.nodes
  threads := by
    have hbinders : bindersOf (as ++ [.body ks]) = bindersOf as := bindersOf_append_one as _
    rw [← hbinders]
    exact h.threads
  clauses := by
    intro x hx k hk
    rcases List.mem_cons.mp hx with rfl | hx
    · exact Or.inl hk
    · rcases h.clauses x hx k hk with hmem | ⟨hmem, hin⟩
      · exact Or.inl (by simpa using hmem)
      · exact Or.inr ⟨List.mem_cons_of_mem _ hmem, hin⟩
  bodies := by
    intro n x hx
    change (⟨as, .stmt (.tryCatch span b ks last)⟩ :: spotsOf xs)[n]? = some x at hx
    cases n with
    | zero =>
      cases hx
      exact (List.append_nil _).symm
    | succ n =>
      rw [List.getElem?_cons_succ] at hx
      -- the nodes up to here leave the body open
      have hopen : ((Visit.block b :: b.inner).take n).length ≤ b.inner.length := by
        have hn := (List.getElem?_eq_some_iff.mp hx).1
        rw [h.length_spotsOf, List.length_cons] at hn
        exact Nat.le_trans (List.length_take_le _ _) (Nat.lt_succ_iff.mp hn)
      rw [h.bodies n x hx, guardsOf_append_body, List.take_succ_cons, caughtAfter_open hopen,
        List.append_assoc]
  ended := by
    intro rest
    have hclosed : b.inner.length < (Visit.block b :: b.inner ++ rest).length := by
      rw [List.length_append, List.length_cons]
      omega
    rw [List.cons_append, caughtAfter_closed hclosed, h.ended]

/- What the block of a clause covers, seen from around the clause. -/
theorem clause {k : Catch} (h : Covers (as ++ [.clause k]) xs k.inner) :
    Covers as (⟨as, .enter k⟩ :: (xs ++ [⟨as ++ [.clause k], .leave k⟩]))
      (.catchClause k :: k.inner) := by
  have hspots : spotsOf (⟨as, .enter k⟩ :: (xs ++ [⟨as ++ [.clause k], .leave k⟩])) =
      ⟨as, .catchClause k⟩ :: spotsOf xs := by
    simp [spotsOf, Amid.spread, Stretch.nodes]
  refine ⟨?_, ?_, ?_, ?_, ?_⟩
  · rw [List.flatMap_cons, List.flatMap_append, h.nodes]
    exact congrArg (Visit.catchClause k :: ·) (List.append_nil _)
  · rw [deedsOf_cons, deedsOf_append, deedsOf_cons, deedsOf_nil, List.append_nil]
    exact (Threads.enter as k).append (h.threads.append (.leave as k))
  · intro x hx k' hk'
    rw [hspots] at hx
    rcases List.mem_cons.mp hx with rfl | hx
    · exact Or.inl hk'
    · rcases h.clauses x hx k' hk' with hmem | ⟨hmem, hin⟩
      · rcases List.mem_append.mp hmem with hmem | hmem
        · exact Or.inl hmem
        · cases List.mem_singleton.mp hmem
          exact Or.inr ⟨List.mem_cons_self, h.node_mem hx⟩
      · exact Or.inr ⟨List.mem_cons_of_mem _ hmem, hin⟩
  · intro n x hx
    rw [hspots] at hx
    cases n with
    | zero =>
      cases hx
      exact (List.append_nil _).symm
    | succ n =>
      rw [List.getElem?_cons_succ] at hx
      rw [h.bodies n x hx, guardsOf_append_clause, List.take_succ_cons, caughtAfter_cons rfl]
  · intro rest
    rw [List.cons_append, caughtAfter_cons rfl, h.ended]

end Covers

mutual

theorem covers_stmt (as : List Around) (t : Stmt) :
    Covers as (stretchesOfStmt as t) (.stmt t :: t.inner) := by
  rw [stretchesOfStmt.eq_def]
  cases t with
  | block b => exact (Covers.head as rfl).append (covers_block as b)
  | ifElse _ e y es n =>
    exact (Covers.head as rfl).append
      (((covers_stmt as y).append (covers_elseIfs as es)).append (covers_else as n))
  | whileLoop _ e b | forLoop _ _ _ _ b =>
    exact (Covers.head as rfl).append (covers_stmt as b)
  | foreach span e k v b =>
    have hall := (Covers.head as (t := .foreach span e k v b) rfl).append (covers_stmt as b)
    simpa [headNodes, Stmt.inner] using hall
  | doWhile _ b e =>
    exact (Covers.head as rfl).append ((covers_stmt as b).append (.eval as e))
  | switch _ e cs => exact (Covers.head as rfl).append (covers_cases as cs)
  | tryCatch span b cs l =>
    exact ((covers_block (as ++ [.body cs]) b).body.append (covers_catches as cs)).append
      (covers_last as l)
  | expr | returning | throwing | echo | unset | staticVars | globals | jump | declaration | nop =>
    exact .head as rfl

theorem covers_else (as : List Around) (t : Option Stmt) :
    Covers as (stretchesOfElse as t) (Stmt.innerOption t) := by
  cases t with
  | none => exact .nil as
  | some t => exact covers_stmt as t

theorem covers_stmts (as : List Around) (ts : List Stmt) :
    Covers as (stretchesOfStmts as ts) (Stmt.innerList ts) := by
  cases ts with
  | nil => exact .nil as
  | cons t ts => exact (covers_stmt as t).append (covers_stmts as ts)

theorem covers_elseIfs (as : List Around) (es : List ElseIf) :
    Covers as (stretchesOfElseIfs as es) (Stmt.innerElseIfs es) := by
  cases es with
  | nil => exact .nil as
  | cons e es => exact (covers_elseIf as e).append (covers_elseIfs as es)

theorem covers_elseIf (as : List Around) (e : ElseIf) :
    Covers as (stretchesOfElseIf as e) e.inner := by
  cases e with
  | mk e b => exact (Covers.eval as e).append (covers_stmt as b)

theorem covers_cases (as : List Around) (ks : List Case) :
    Covers as (stretchesOfCases as ks) (Stmt.innerCases ks) := by
  cases ks with
  | nil => exact .nil as
  | cons k ks => exact (covers_case as k).append (covers_cases as ks)

theorem covers_case (as : List Around) (k : Case) :
    Covers as (stretchesOfCase as k) k.inner := by
  cases k with
  | mk l b => exact (Covers.evalOption as l).append (covers_stmts as b)

theorem covers_catches (as : List Around) (ks : List Catch) :
    Covers as (stretchesOfCatches as ks) (Stmt.innerCatches ks) := by
  cases ks with
  | nil => exact .nil as
  | cons k ks => exact (covers_catch as k).append (covers_catches as ks)

theorem covers_catch (as : List Around) (k : Catch) :
    Covers as (stretchesOfCatch as k) (.catchClause k :: k.inner) := by
  cases k with
  | mk span types var b => exact Covers.clause (covers_block _ b)

theorem covers_last (as : List Around) (b : Option Block) :
    Covers as (stretchesOfLast as b) (Block.innerOption b) := by
  cases b with
  | none => exact .nil as
  | some b => exact covers_block as b

theorem covers_block (as : List Around) (b : Block) :
    Covers as (stretchesOfBlock as b) (.block b :: b.inner) := by
  cases b with
  | mk span ts => exact (Covers.block as ⟨span, ts⟩).append (covers_stmts as ts)

end

/- The body of a method is walked without its own node. -/
theorem covers_body (b : Block) : Covers [] (stretchesOfStmts [] b.statements) b.inner := by
  cases b with
  | mk _ ts => exact covers_stmts [] ts

theorem map_what_spots (b : Block) : (spots b).map (·.what) = b.inner :=
  (covers_body b).map_what

theorem spots_clauses (b : Block) {x : Amid Visit} (hx : x ∈ spots b) {k : Catch}
    (hk : .clause k ∈ x.around) : .catchClause k ∈ b.inner ∧ x.what ∈ k.inner :=
  ((covers_body b).clauses x hx k hk).resolve_left List.not_mem_nil

/- What is caught at a node is what the nodes before it leave open. -/
theorem spots_bodies (b : Block) {x : Amid Visit} (hx : x ∈ spots b) :
    ∃ n, b.inner[n]? = some x.what ∧ guardsOf x.around = caughtAfter (b.inner.take n) := by
  obtain ⟨n, hn⟩ := List.mem_iff_getElem?.mp hx
  refine ⟨n, ?_, (covers_body b).bodies n x hn⟩
  rw [← map_what_spots, List.getElem?_map, hn]
  rfl

/- Wherever a step of a body is taken, the variables are those of the clauses around it. -/
theorem binds_deeds (s : Setting) (b : Block) {k : Known} (hk : k.catchVars = [])
    {y : Amid Step × Known} (hy : y ∈ trace s (deeds b) k) :
    Binds y.2.catchVars (bindersOf y.1.around) := by
  refine ((covers_body b).threads s k ?_).1 y hy
  rw [hk]
  exact .nil

theorem Stretch.origin {st : Stretch} {step : Step} (h : step ∈ st.steps) :
    step.isClausal = true ∨ step.isTarget = true ∨ ∃ v ∈ st.nodes, Origin v step := by
  cases st with
  | stmt t =>
    cases ht : tried? (.stmt t) with
    | none => exact Or.inr ((sourced_head ht).steps step h)
    | some =>
      cases t with
      | tryCatch => cases h
      | _ => cases ht
  | block => cases h
  | eval e => exact Or.inr ((sourced_expr false e).steps step h)
  | enter | leave =>
    obtain ⟨_, _, rfl⟩ := List.mem_map.mp h
    exact Or.inl rfl

/- A step stands where the node does that takes it. -/
theorem spot_of_deed {b : Block} {x : Amid Step} (hx : x ∈ deeds b)
    (htarget : x.what.isTarget = false) (hclausal : x.what.isClausal = false) :
    ∃ v, ⟨x.around, v⟩ ∈ spots b ∧ Origin v x.what := by
  obtain ⟨⟨as, st⟩, hst, hx⟩ := List.mem_flatMap.mp hx
  obtain ⟨step, hmem, rfl⟩ := List.mem_map.mp hx
  obtain ⟨v, hv, horigin⟩ := ((Stretch.origin hmem).resolve_left (by simp [hclausal])).resolve_left
    (by simp [htarget])
  exact ⟨v, List.mem_flatMap.mpr ⟨⟨as, st⟩, hst, List.mem_map_of_mem hv⟩, horigin⟩

end ContractAudit.Throws
