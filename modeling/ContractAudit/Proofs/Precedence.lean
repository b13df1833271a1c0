import ContractAudit.Proofs.Words

/-! Trees of binary operators. Main statement: variables with binary operators between them are read
as the one tree in which every operator has looser or equal ones above it only, those with equal
power standing on the side that their associativity tells. -/
namespace ContractAudit.Grammar

/-- Binary operators over variables, each with the word that stands for it. -/
inductive OpTree where
  | leaf (operand : Word)
  | node (left : OpTree) (op : Word) (right : OpTree)
deriving DecidableEq

namespace OpTree

/-- The words of the tree in order. -/
def words : OpTree → List Word
  | leaf v => [v]
  | node l o r => l.words ++ o :: r.words

/-- The operator at the root. -/
def root? : OpTree → Option Infix
  | leaf _ => none
  | node _ o _ => Infix.ofKind? o.1

/-- The operator of an operand binds at least as tightly as the one above it, and more tightly in
the right operand, or in the left one if the operator above associates to the right. -/
def Ordered : OpTree → Prop
  | leaf _ => True
  | node l o r => l.Ordered ∧ r.Ordered ∧ ∃ i, Infix.ofKind? o.1 = some i ∧
    if i.rightAssoc then (∀ j ∈ l.root?, i.power < j.power) ∧ ∀ j ∈ r.root?, i.power ≤ j.power
    else (∀ j ∈ l.root?, i.power ≤ j.power) ∧ ∀ j ∈ r.root?, i.power < j.power

/-- The expression that the tree stands for, without places. -/
def expr : OpTree → Expr
  | leaf v => .var default (variableName v.2)
  | node l o r =>
    match Infix.ofKind? o.1 with
    | some i => .binary default i.op l.expr r.expr
    | none => l.expr

def first : OpTree → Word
  | leaf v => v
  | node l _ _ => l.first

def more : OpTree → List (Word × Word)
  | leaf _ => []
  | node l o r => l.more ++ (o, r.first) :: r.more

end OpTree

/-- The words of a list of pairs. -/
def flat (ps : List (Word × Word)) : List Word := ps.flatMap fun p => [p.1, p.2]

theorem flat_cons (p : Word × Word) (ps : List (Word × Word)) :
    flat (p :: ps) = p.1 :: p.2 :: flat ps := rfl

theorem flat_append (ps qs : List (Word × Word)) : flat (ps ++ qs) = flat ps ++ flat qs :=
  List.flatMap_append

theorem flat_injective {ps qs : List (Word × Word)} (h : flat ps = flat qs) : ps = qs := by
  induction ps generalizing qs with
  | nil =>
    cases qs with
    | nil => rfl
    | cons q qs => cases h
  | cons p ps ih =>
    cases qs with
    | nil => cases h
    | cons q qs =>
      rw [flat_cons, flat_cons, List.cons.injEq, List.cons.injEq] at h
      obtain ⟨h₁, h₂, h⟩ := h
      rw [Prod.ext h₁ h₂, ih h]

namespace OpTree
variable {t u l r : OpTree} {o : Word} {i : Infix}

theorem words_eq (t : OpTree) : t.words = t.first :: flat t.more := by
  induction t with
  | leaf v => rfl
  | node l o r ihl ihr => rw [words, ihl, ihr, more, flat_append, flat_cons]; rfl

/- Operators of one power associate to the same side. -/
theorem rightAssoc_iff {k : TokenKind} (h : Infix.ofKind? k = some i) :
    i.rightAssoc = true ↔ i.power = 7 ∨ i.power = 22 := by
  revert h
  unfold Infix.ofKind?
  split <;> rintro ⟨⟩ <;> simp

theorem Ordered.roots_le (h : (node l o r).Ordered) (hi : Infix.ofKind? o.1 = some i) :
    (∀ j ∈ l.root?, i.power ≤ j.power) ∧ ∀ j ∈ r.root?, i.power ≤ j.power := by
  obtain ⟨-, -, i', hi', hsides⟩ := h
  cases hi'.symm.trans hi
  split at hsides
  · exact ⟨fun j hj => Nat.le_of_lt (hsides.1 j hj), hsides.2⟩
  · exact ⟨hsides.1, fun j hj => Nat.le_of_lt (hsides.2 j hj)⟩

/- No operator has less power than the root. -/
theorem Ordered.le_power (h : t.Ordered) {p : Nat} (hp : ∀ i ∈ t.root?, p ≤ i.power) :
    ∀ x ∈ t.more, ∀ j, Infix.ofKind? x.1.1 = some j → p ≤ j.power := by
  induction t with
  | leaf v => simp [more]
  | node l o r ihl ihr =>
    obtain ⟨hl, hr, i, hi, -⟩ := id h
    have hpi : p ≤ i.power := hp i hi
    obtain ⟨hleft, hright⟩ := h.roots_le hi
    intro x hx j hj
    rcases List.mem_append.mp hx with hx | hx
    · exact ihl hl (fun i hi => Nat.le_trans hpi (hleft i hi)) x hx j hj
    · rcases List.mem_cons.mp hx with rfl | hx
      · cases hi.symm.trans hj
        exact hpi
      · exact ihr hr (fun i hi => Nat.le_trans hpi (hright i hi)) x hx j hj

/- Which of two operators stands above the other is told by their powers and by the side. -/
theorem Ordered.right_power (h : (node l o r).Ordered) (hi : Infix.ofKind? o.1 = some i)
    {x : Word × Word} (hx : x ∈ r.more) {j : Infix} (hj : Infix.ofKind? x.1.1 = some j) :
    i.rightPower ≤ j.power := by
  obtain ⟨-, hr, i', hi', hsides⟩ := h
  cases hi'.symm.trans hi
  refine hr.le_power (fun j hj => ?_) x hx j hj
  unfold Infix.rightPower
  split at hsides
  · next hassoc =>
    rw [if_pos hassoc]
    exact hsides.2 j hj
  · next hassoc =>
    rw [if_neg hassoc]
    exact hsides.2 j hj

theorem Ordered.left_power (h : (node l o r).Ordered) (hi : Infix.ofKind? o.1 = some i)
    {x : Word × Word} (hx : x ∈ l.more) {j : Infix} (hj : Infix.ofKind? x.1.1 = some j) :
    i.power < j.rightPower := by
  obtain ⟨hl, -, i', hi', hsides⟩ := h
  cases hi'.symm.trans hi
  have hiff := rightAssoc_iff hi
  have hiff' := rightAssoc_iff hj
  unfold Infix.rightPower
  split at hsides
  · have hlt : i.power + 1 ≤ j.power := hl.le_power hsides.1 x hx j hj
    split <;> omega
  · next hassoc =>
    have hle : i.power ≤ j.power := hl.le_power hsides.1 x hx j hj
    -- equal powers associate alike
    split
    · next hassoc' =>
      rcases Nat.lt_or_eq_of_le hle with hlt | heq
      · exact hlt
      · exact absurd (hiff.mpr (heq ▸ hiff'.mp hassoc')) hassoc
    · omega

/- The root cannot stand further to the left in one tree than in another. -/
theorem Ordered.not_split {l' r' : OpTree} {o' : Word} {mid : List (Word × Word)}
    (h : (node l o r).Ordered) (h' : (node l' o' r').Ordered)
    (hl' : l'.more = l.more ++ (o, r.first) :: mid)
    (hr : r.more = mid ++ (o', r'.first) :: r'.more) : False := by
  obtain ⟨-, -, i, hi, -⟩ := id h
  obtain ⟨-, -, i', hi', -⟩ := id h'
  have hright : i.rightPower ≤ i'.power :=
    h.right_power hi (x := (o', r'.first)) (by simp [hr]) hi'
  have hleft : i'.power < i.rightPower :=
    h'.left_power hi' (x := (o, r.first)) (by simp [hl']) hi
  omega

theorem Ordered.unique (h : t.Ordered) (h' : u.Ordered) (hfirst : t.first = u.first)
    (hmore : t.more = u.more) : t = u := by
  induction t generalizing u with
  | leaf v =>
    cases u with
    | leaf w => exact congrArg leaf hfirst
    | node l o r => simp [more] at hmore
  | node l o r ihl ihr =>
    cases u with
    | leaf w => simp [more] at hmore
    | node l' o' r' =>
      rcases List.append_eq_append_iff.mp hmore with ⟨mid, hl', hr⟩ | ⟨mid, hl, hr'⟩
      · cases mid with
        | nil =>
          simp only [List.append_nil, List.nil_append, List.cons.injEq, Prod.mk.injEq] at hl' hr
          obtain ⟨⟨rfl, hf⟩, hr⟩ := hr
          rw [ihl h.1 h'.1 hfirst hl'.symm, ihr h.2.1 h'.2.1 hf hr]
        | cons x mid =>
          simp only [List.cons_append, List.cons.injEq] at hr
          obtain ⟨rfl, hr⟩ := hr
          exact (h.not_split h' hl' hr).elim
      · cases mid with
        | nil =>
          simp only [List.append_nil, List.nil_append, List.cons.injEq, Prod.mk.injEq] at hl hr'
          obtain ⟨⟨rfl, hf⟩, hr⟩ := hr'
          rw [ihl h.1 h'.1 hfirst hl, ihr h.2.1 h'.2.1 hf.symm hr.symm]
        | cons x mid =>
          simp only [List.cons_append, List.cons.injEq] at hr'
          obtain ⟨rfl, hr'⟩ := hr'
          exact (h'.not_split h hl hr').elim

theorem root?_ofKind (h : t.root? = some i) : ∃ k, Infix.ofKind? k = some i := by
  cases t with
  | leaf v => cases h
  | node l o r => exact ⟨o.1, h⟩

/- What the loop checks at an operator is the order around its node. -/
theorem Ordered.node (hl : l.Ordered) (hr : r.Ordered) (hi : Infix.ofKind? o.1 = some i)
    (hleft : ∀ j ∈ l.root?, i.power < j.rightPower)
    (hright : ∀ j ∈ r.root?, i.rightPower ≤ j.power) : (node l o r).Ordered := by
  refine ⟨hl, hr, i, hi, ?_⟩
  have hle (j : Infix) (hj : j ∈ l.root?) : i.power ≤ j.power := by
    have := hleft j hj
    unfold Infix.rightPower at this
    split at this <;> omega
  unfold Infix.rightPower at hright
  split
  · next hassoc =>
    rw [if_pos hassoc] at hright
    refine ⟨fun j hj => ?_, hright⟩
    obtain ⟨k, hk⟩ := root?_ofKind hj
    have hlt := hleft j hj
    unfold Infix.rightPower at hlt
    rcases Nat.lt_or_eq_of_le (hle j hj) with h | heq
    · exact h
    · have hassoc' := (rightAssoc_iff hk).mpr (heq ▸ (rightAssoc_iff hi).mp hassoc)
      rw [if_pos hassoc'] at hlt
      exact hlt
  · next hassoc =>
    rw [if_neg hassoc] at hright
    exact ⟨hle, hright⟩

end OpTree

/-- Operators, each with a variable after it. -/
def Operations (ps : List (Word × Word)) : Prop :=
  ∀ p ∈ ps, (Infix.ofKind? p.1.1).isSome ∧ p.2.1 = .var

/-- The tree has no operator below this power, and the first one that it leaves out is below it. -/
structure OpTree.Climbs (least : Nat) (t : OpTree) (left : List (Word × Word)) : Prop where
  ordered : t.Ordered
  root : ∀ i ∈ t.root?, least ≤ i.power
  stops : ∀ p ∈ left.head?, ∀ i, Infix.ofKind? p.1.1 = some i → i.power < least

/-- What the parsers of one level do with fewer than `n` operators ahead. -/
def Nested.Climbs (g : Nested) (n : Nat) : Prop :=
  ∀ least v ps, v.1 = .var → Operations ps → ps.length < n →
    ∃ (t : OpTree) (left : List (Word × Word)), t.first = v ∧ ps = t.more ++ left ∧
      t.Climbs least left ∧ Parses (g.expr least) (v :: flat ps) (flat left) (·.unplaced = t.expr)

section
variable {g : Nested} {n : Nat} {v : Word} {ps : List (Word × Word)}

theorem operand_variable {ws : List Word} (hv : v.1 = .var)
    (h : ∀ w ∈ ws.head?, isAccess w.1 = false) :
    Parses (operand g) (v :: ws) ws (·.unplaced = (OpTree.leaf v).expr) := by
  obtain ⟨k, x⟩ := v
  obtain rfl : k = .var := hv
  have hcast : NoCast ((.var, x) :: ws) := by
    rintro a t b more heq ha
    cases heq
    cases ha
  refine operand_parses hcast rfl rfl nofun nofun (postfixed_parses ?_ h)
  unfold primary
  refine .here fun start => .kind? ?_
  exact .take (.spanFrom fun s => .pure rfl)

theorem Operations.head (h : Operations ps) : ∀ w ∈ (flat ps).head?, isAccess w.1 = false := by
  cases ps with
  | nil => nofun
  | cons p ps =>
    rintro w ⟨⟩
    obtain ⟨i, hi⟩ := Option.isSome_iff_exists.mp (h p List.mem_cons_self).1
    exact (Infix.ofKind?_some hi).1

/- One round takes an operator and all that binds more tightly after it. The next operator, if any,
does not belong below the one that was taken. -/
theorem operators_climb (least : Nat) (hg : g.Climbs n) (t : OpTree) (hps : Operations ps)
    (hn : ps.length ≤ n) (ht : t.Ordered) (hroot : ∀ i ∈ t.root?, least ≤ i.power)
    (hnext : ∀ p ∈ ps.head?, ∀ i, Infix.ofKind? p.1.1 = some i →
      ∀ j ∈ t.root?, i.power < j.rightPower) :
    ∃ (u : OpTree) (left : List (Word × Word)), u.first = t.first ∧
      t.more ++ ps = u.more ++ left ∧ u.Climbs least left ∧
      ∀ start (e : Expr), e.unplaced = t.expr →
        Parses (iterate (operatorStep g start least) e) (flat ps) (flat left)
          (·.unplaced = u.expr) := by
  induction hlen : ps.length using Nat.strongRecOn generalizing ps t with
  | ind m ih =>
    by_cases hstop : ∀ p ∈ ps.head?, ∀ i, Infix.ofKind? p.1.1 = some i → i.power < least
    · refine ⟨t, ps, rfl, rfl, ⟨ht, hroot, hstop⟩, fun start e he => ?_⟩
      refine (Parses.iterate_stop (operatorStep_stops ?_)).mono fun _ heq => heq ▸ he
      intro w hw
      cases ps with
      | nil => cases hw
      | cons p ps =>
        cases hw
        obtain ⟨i, hi⟩ := Option.isSome_iff_exists.mp (hps p List.mem_cons_self).1
        exact .inr ⟨i, hi, hstop p rfl i hi⟩
    · simp only [Classical.not_forall, Nat.not_lt] at hstop
      obtain ⟨⟨o, v⟩, hp, i, hi, hleast⟩ := hstop
      obtain ⟨ps, rfl⟩ : ∃ qs, ps = (o, v) :: qs := List.head?_eq_some_iff.mp hp
      rw [List.length_cons] at hn hlen
      have hps' : Operations ps := fun p hp => hps p (List.mem_cons_of_mem _ hp)
      obtain ⟨r, left, rfl, rfl, hr, hparse⟩ :=
        hg i.rightPower v ps (hps _ List.mem_cons_self).2 hps' (by omega)
      have hnode : (OpTree.node t o r).Ordered := .node ht hr.ordered hi (hnext _ rfl i hi) hr.root
      have hleft : left.length ≤ (r.more ++ left).length := by
        rw [List.length_append]
        omega
      obtain ⟨u, left', hfirst, hmore, hu, hrest⟩ := ih left.length (by omega) (.node t o r)
        (fun p hp => hps' p (List.mem_append_right _ hp)) (by omega) hnode
        (by rintro j hj; cases hi.symm.trans hj; exact hleast)
        (by rintro p hp j hj i' hi'; cases hi.symm.trans hi'; exact hr.stops p hp j hj) rfl
      refine ⟨u, left', hfirst, ?_, hu, fun start e he => ?_⟩
      · rw [← hmore, OpTree.more, List.append_assoc, List.cons_append]
      · obtain ⟨k, x⟩ := o
        refine Parses.iterate_round (operatorStep_binary hi hleast hparse) ?_ ?_
        · simp [flat_cons, flat_append]
          omega
        · rintro _ ⟨s, b, rfl, hb⟩
          refine hrest start _ ?_
          simp only [Expr.unplaced, he, hb, OpTree.expr, hi]

theorem expression_climbs (least : Nat) (hg : g.Climbs n) (hv : v.1 = .var) (hps : Operations ps)
    (hn : ps.length ≤ n) :
    ∃ (t : OpTree) (left : List (Word × Word)), t.first = v ∧ ps = t.more ++ left ∧
      t.Climbs least left ∧
      Parses (expression g least) (v :: flat ps) (flat left) (·.unplaced = t.expr) := by
  obtain ⟨t, left, hfirst, hmore, ht, hparse⟩ :=
    operators_climb least hg (.leaf v) hps hn trivial nofun (fun _ _ _ _ => nofun)
  refine ⟨t, left, hfirst, hmore, ht, ?_⟩
  unfold expression
  refine .here fun start => (operand_variable hv hps.head).bind fun e he => ?_
  exact hparse _ e he

theorem levels_climb (n : Nat) : (levels n).Climbs n := by
  induction n with
  | zero => exact fun _ _ _ _ _ h => absurd h (Nat.not_lt_zero _)
  | succ n ih => exact fun least v ps hv hps hn => expression_climbs least ih hv hps (by omega)

end

/-- The tokens of a first variable and of operators with a variable after each. -/
def operation (v : Token) (ps : List (Token × Token)) : List Token :=
  v :: ps.flatMap fun p => [p.1, p.2]

def wordPair (p : Token × Token) : Word × Word := (p.1.word, p.2.word)

theorem operation_words (v : Token) (ps : List (Token × Token)) :
    (operation v ps).map Token.word = v.word :: flat (ps.map wordPair) := by
  rw [operation, List.map_cons, List.map_flatMap, flat, List.flatMap_map]
  rfl

/-- Variables with binary operators between them are read to the end, as the tree in which the
operators are ordered by how tightly they bind. There is no other such tree with these words. -/
theorem expression_precedence (v : Token) (ps : List (Token × Token)) (hv : v.kind = .var)
    (hps : ∀ p ∈ ps, (Infix.ofKind? p.1.kind).isSome ∧ p.2.kind = .var) :
    ∃ t : OpTree, t.words = (operation v ps).map Token.word ∧ t.Ordered ∧
      (∀ u : OpTree, u.words = (operation v ps).map Token.word → u.Ordered → u = t) ∧
      ∀ n ≥ ps.length, ∃ e d,
        expression (levels n) 0 (Cursor.ofTokens (operation v ps)) = .ok (e, d) ∧ d.rest = [] ∧
          e.unplaced = t.expr := by
  have hpairs : Operations (ps.map wordPair) := by
    intro p hp
    obtain ⟨q, hq, rfl⟩ := List.mem_map.mp hp
    exact hps q hq
  -- nothing is left out: no operator has less power than zero
  have hwhole (n : Nat) (hn : ps.length ≤ n) : ∃ t : OpTree,
      t.words = (operation v ps).map Token.word ∧ t.Ordered ∧
      Parses (expression (levels n) 0) ((operation v ps).map Token.word) []
        (·.unplaced = t.expr) := by
    obtain ⟨t, left, hfirst, hmore, ht, hparse⟩ := expression_climbs (v := v.word) 0
      (levels_climb n) hv hpairs (by rwa [List.length_map])
    have hleft : left = [] := by
      cases left with
      | nil => rfl
      | cons p left =>
        have hp : p ∈ ps.map wordPair := by rw [hmore]; simp
        obtain ⟨i, hi⟩ := Option.isSome_iff_exists.mp (hpairs p hp).1
        exact absurd (ht.stops p rfl i hi) (Nat.not_lt_zero _)
    rw [hleft] at hmore hparse
    rw [operation_words]
    exact ⟨t, by rw [t.words_eq, hfirst, hmore, List.append_nil], ht.ordered, hparse⟩
  have hunique {t u : OpTree} (ht : t.words = (operation v ps).map Token.word)
      (hu : u.words = (operation v ps).map Token.word) (hto : t.Ordered) (huo : u.Ordered) :
      u = t := by
    have heq := hu.trans ht.symm
    rw [u.words_eq, t.words_eq, List.cons.injEq] at heq
    exact huo.unique hto heq.1 (flat_injective heq.2)
  obtain ⟨t, hwords, hordered, -⟩ := hwhole ps.length (Nat.le_refl _)
  refine ⟨t, hwords, hordered, fun u hu huo => hunique hwords hu hordered huo, fun n hn => ?_⟩
  obtain ⟨u, hu, huo, hparse⟩ := hwhole n hn
  obtain ⟨e, d, hrun, hd, he⟩ := hparse (Cursor.ofTokens (operation v ps)) rfl
  exact ⟨e, d, hrun, List.map_eq_nil_iff.mp hd, hunique hwords hu hordered huo ▸ he⟩

namespace Sample

/-- The operators of `$a ** $b ** $c - $d - $e or $f`, with what follows each. -/
def chain : List (Token × Token) :=
  [(.symbol .pow, "**", "$b"), (.symbol .pow, "**", "$c"), (.symbol .minus, "-", "$d"),
    (.symbol .minus, "-", "$e"), (.keyword .kwOr, "or", "$f")].map fun (k, x, y) =>
      (Word.token (k, x), Word.token (.var, y))

/-- `((($a ** ($b ** $c)) - $d) - $e) or $f` -/
def grouped : OpTree :=
  let v (x : String) : OpTree := .leaf (.var, x)
  let pow : Word := (.symbol .pow, "**")
  let minus : Word := (.symbol .minus, "-")
  .node (.node (.node (.node (v "$a") pow (.node (v "$b") pow (v "$c"))) minus (v "$d"))
    minus (v "$e")) (.keyword .kwOr, "or") (v "$f")

end Sample

theorem expression_precedence_chain : ∃ e d,
    expression (levels 5) 0 (Cursor.ofTokens (operation (Word.token (.var, "$a")) Sample.chain))
      = .ok (e, d) ∧ d.rest = [] ∧ e.unplaced = Sample.grouped.expr := by
  obtain ⟨t, -, -, hunique, hparse⟩ :=
    expression_precedence (Word.token (.var, "$a")) Sample.chain rfl (by decide)
  have hordered : Sample.grouped.Ordered := by
    simp [Sample.grouped, OpTree.Ordered, OpTree.root?, Infix.ofKind?]
  rw [hunique Sample.grouped (by decide) hordered]
  exact hparse 5 (by decide)

end ContractAudit.Grammar
