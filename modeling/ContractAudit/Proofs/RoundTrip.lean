import ContractAudit.Proofs.CommaLists

/-! Reading back what was written out. Main statement: the words of an expression are read to the
last as that expression. -/
namespace ContractAudit.Grammar

/-- What the parsers of one level read back: expressions of at most `n` words. -/
structure Nested.Undoes (st : Style) (g : Nested) (n : Nat) : Prop where
  whole : ∀ {e : Expr} {rest : List Word}, Printable e → (e.words st).length ≤ n → Closed rest →
    Parses (g.expr 0) (e.words st ++ rest) rest (·.unplaced = e.unplaced)
  inside : ∀ {e : Expr} {rest : List Word} (least : Nat), Printable e →
    (e.inside st).length ≤ n → Closed rest →
    Parses (g.expr least) (e.inside st ++ rest) rest (·.unplaced = e.unplaced)

theorem unplacedItems_eq_map (is : List Item) : Expr.unplacedItems is = is.map Item.unplaced := by
  induction is with
  | nil => rfl
  | cons i is ih => rw [Expr.unplacedItems, ih, List.map_cons]

theorem unplacedArgs_eq_map (as : List Arg) : Expr.unplacedArgs as = as.map Arg.unplaced := by
  induction as with
  | nil => rfl
  | cons a as ih => rw [Expr.unplacedArgs, ih, List.map_cons]

section
variable {st : Style} {g : Nested} {n : Nat} {rest : List Word}

theorem item_head (st : Style) {i : Item} (hkey : ∀ k ∈ i.key, Printable k)
    (hvalue : Printable i.value) (href : i.byRef = true → i.key.isSome) :
    ∃ w ws, i.words st = w :: ws ∧ (w.1 = .symbol .ellipsis ∨ isInner w.1 = true) := by
  obtain ⟨key, v, byRef, spread⟩ := i
  dsimp only at hkey hvalue href
  cases spread with
  | true => cases key <;> exact ⟨_, _, rfl, .inl rfl⟩
  | false =>
    cases key with
    | some k =>
      obtain ⟨w, ws, hw, hinner⟩ := inside_head st (hkey k rfl)
      exact ⟨w, _, by rw [Item.words, Expr.inside_def, hw]; rfl, .inr hinner⟩
    | none =>
      obtain rfl : byRef = false := Bool.eq_false_iff.mpr fun h => by cases href h
      obtain ⟨w, ws, hw, hinner⟩ := inside_head st hvalue
      exact ⟨w, ws, by rw [Item.words, Expr.inside_def, hw]; rfl, .inr hinner⟩

theorem item_readsBack (hg : g.Undoes st n) {i : Item} (hkey : ∀ k ∈ i.key, Printable k)
    (hvalue : Printable i.value) (href : i.byRef = true → i.key.isSome)
    (hn : (i.words st).length ≤ n) : ReadsBack (item g) (·.words st) Item.unplaced .rbracket i where
  begins := by
    obtain ⟨w, ws, hw, hkind⟩ := item_head st hkey hvalue href
    refine ⟨w, ws, hw, ?_, ?_⟩ <;> rintro heq <;> rw [heq] at hkind <;> simp [isInner] at hkind
  reads := by
    intro rest hrest
    obtain ⟨key, v, byRef, spread⟩ := i
    dsimp only at hkey hvalue href
    unfold item
    cases key with
    | none =>
      obtain rfl : byRef = false := Bool.eq_false_iff.mpr fun h => by cases href h
      simp only [Item.words, Expr.inside_def, List.append_assoc, List.length_append] at hn ⊢
      refine .accept_flag (inside_head_ne hvalue rfl _) ?_
      refine (hg.inside 0 hvalue (by omega) (hrest.closed rfl)).bind fun v' hv' => ?_
      have hno : rest.head?.map (·.1) ≠ some (.symbol .doubleArrow) := by
        obtain ⟨w, ws, rfl, hw⟩ := hrest
        rintro heq
        obtain heq : w.1 = .symbol .doubleArrow := by simpa using heq
        simp [heq] at hw
      refine .accept_other hno (.pure ?_)
      simp only [Item.unplaced, Expr.unplacedOption, hv']
    | some k =>
      have hk := hkey k rfl
      simp only [Item.words, Expr.inside_def, List.append_assoc, List.length_append,
        List.cons_append, List.length_cons] at hn ⊢
      refine .accept_flag (inside_head_ne hk rfl _) ?_
      refine (hg.inside 0 hk (by omega) (.cons rfl)).bind fun k' hk' => .accept ?_
      refine .accept_flag (inside_head_ne hvalue rfl _) ?_
      refine (hg.inside 0 hvalue (by omega) (hrest.closed rfl)).bind fun v' hv' => .pure ?_
      simp only [Item.unplaced, Expr.unplacedOption, hk', hv']

theorem identifierWord_ne_symbol (x : String) (s : Symbol) :
    (identifierWord x).1 ≠ .symbol s := by
  rcases identifierWord_kind x with h | ⟨k, h⟩ <;> rw [h] <;> nofun

/- After an ellipsis comes a name or an expression. -/
theorem arg_head (st : Style) {a : Arg} (hvalue : Printable a.value) :
    ∃ w ws, a.words st = w :: ws ∧ w.1 ≠ .symbol .rparen ∧ w.1 ≠ .symbol .comma ∧
      (w.1 = .symbol .ellipsis → ∃ v vs, ws = v :: vs ∧ v.1 ≠ .symbol .rparen) := by
  obtain ⟨name, v, spread⟩ := a
  dsimp only at hvalue
  rw [Arg.words, Expr.inside_def]
  have hinner : ∃ w ws, (name.elim [] fun x => [identifierWord x, Symbol.colon.word]) ++
      v.inside st = w :: ws ∧ w.1 ≠ .symbol .rparen ∧ w.1 ≠ .symbol .comma ∧
      w.1 ≠ .symbol .ellipsis := by
    cases name with
    | some x =>
      exact ⟨_, _, rfl, identifierWord_ne_symbol x _, identifierWord_ne_symbol x _,
        identifierWord_ne_symbol x _⟩
    | none =>
      obtain ⟨w, ws, hw, hinner⟩ := inside_head st hvalue
      refine ⟨w, ws, hw, ?_, ?_, ?_⟩ <;> intro heq <;> rw [heq] at hinner <;> cases hinner
  obtain ⟨w, ws, hw, hparen, hcomma, hellipsis⟩ := hinner
  rw [hw]
  cases spread with
  | true => exact ⟨_, _, rfl, nofun, nofun, fun _ => ⟨w, ws, rfl, hparen⟩⟩
  | false => exact ⟨w, ws, rfl, hparen, hcomma, fun h => absurd h hellipsis⟩

theorem arg_readsBack (hg : g.Undoes st n) {a : Arg} (hvalue : Printable a.value)
    (hname : ∀ x ∈ a.name, IsIdentifier x) (hn : (a.words st).length ≤ n) :
    ReadsBack (arg g) (·.words st) Arg.unplaced .rparen a where
  begins := by
    obtain ⟨w, ws, hw, hparen, hcomma, -⟩ := arg_head st hvalue
    exact ⟨w, ws, hw, hparen, hcomma⟩
  reads := by
    intro rest hrest
    obtain ⟨name, v, spread⟩ := a
    dsimp only at hvalue hname
    unfold arg
    simp only [Arg.words, Expr.inside_def, List.append_assoc, List.length_append] at hn ⊢
    cases name with
    | none =>
      refine .accept_flag (inside_head_ne hvalue rfl _) (.atIdentifier (.checkAt ?_))
      obtain ⟨w, ws, hw, hinner⟩ := inside_head st hvalue
      have hno : Word.isIdentifier w = false := by
        rcases isInner_cases hinner with h | h | h | h | h
        all_goals simp [Word.isIdentifier, TokenKind.isKeyword, h]
      simp only [Option.elim_none, List.nil_append, hw, List.cons_append, List.head?_cons,
        Option.any_some, hno, Bool.false_and, Bool.false_eq_true, if_false]
      rw [← List.cons_append, ← hw]
      refine (hg.inside 0 hvalue (by omega) (hrest.closed rfl)).bind fun v' hv' => .pure ?_
      simp only [Arg.unplaced, hv']
    | some x =>
      refine .accept_flag ?_ (.atIdentifier (.checkAt ?_))
      · simpa using identifierWord_ne_symbol x _
      · have hx := identifierWord_isIdentifier (hname x rfl)
        simp only [Option.elim_some, List.cons_append, List.nil_append, List.head?_cons,
          Option.any_some, hx, Bool.true_and, List.getElem?_cons_succ, List.getElem?_cons_zero,
          Option.map_some, Symbol.word, beq_self_eq_true, if_true]
        refine .take (.advance ?_)
        refine (hg.inside 0 hvalue (by omega) (hrest.closed rfl)).bind fun v' hv' => .pure ?_
        simp only [Arg.unplaced, hv', identifierWord_text]

/- Arguments do not look like the dots that make a closure. -/
theorem args_notClosure {as : List Arg} (hargs : ∀ a ∈ as, Printable a.value) {ws : List Word}
    (hws : ws = commas (as.map (·.words st)) ++ Symbol.rparen.word :: rest) :
    (ws.head?.map (·.1) == some (.symbol .ellipsis) &&
      ws[1]?.map (·.1) == some (.symbol .rparen)) = false := by
  cases as with
  | nil =>
    rw [hws]
    rfl
  | cons a as =>
    obtain ⟨more, hmore⟩ := commas_head (a.words st) (as.map (·.words st))
    obtain ⟨w, vs, hw, -, -, hnext⟩ := arg_head st (hargs a List.mem_cons_self)
    rw [List.map_cons, hmore, hw] at hws
    simp only [hws, List.cons_append, List.head?_cons, Option.map_some, List.getElem?_cons_succ,
      Bool.and_eq_false_iff, beq_eq_false_iff_ne, ne_eq, Option.some.injEq]
    by_cases hdots : w.1 = .symbol .ellipsis
    · obtain ⟨v, us, rfl, hv⟩ := hnext hdots
      exact .inr (by simpa using hv)
    · exact .inl hdots

theorem callArgs_undoes (hg : g.Undoes st n) {as : List Arg} {firstClass : Bool}
    (hcall : IsCall as firstClass) (hargs : ∀ a ∈ as, Printable a.value)
    (hn : (callWords firstClass (Expr.argWords st as)).length ≤ n) :
    Parses (callArgs g) (callWords firstClass (Expr.argWords st as) ++ rest) rest
      fun r => Expr.unplacedArgs r.1 = Expr.unplacedArgs as ∧ r.2 = firstClass := by
  unfold callArgs
  simp only [callWords, parens, List.cons_append, List.append_assoc, List.nil_append]
  refine .expect (.check (.checkAt ?_))
  cases firstClass with
  | true =>
    rw [hcall.none rfl]
    refine .advance ?_
    rw [pure_bind]
    exact .expect (.pure ⟨rfl, rfl⟩)
  | false =>
    simp only [callWords, parens, Bool.false_eq_true, if_false, List.length_append,
      List.length_cons] at hn ⊢
    rw [Expr.argWords_eq_map] at hn ⊢
    simp only [args_notClosure hargs rfl, Bool.false_eq_true, if_false]
    have hback : ∀ a ∈ as, ReadsBack (arg g) (·.words st) Arg.unplaced .rparen a := by
      intro a ha
      refine arg_readsBack hg (hargs a ha) (hcall.names a ha) ?_
      have := length_le_commas (List.mem_map_of_mem (f := (·.words st)) ha)
      omega
    refine (commaList_readsBack (by decide) hback).bind fun as' has => .expect (.pure ⟨?_, rfl⟩)
    rw [unplacedArgs_eq_map, unplacedArgs_eq_map, has]

end

section
variable {st : Style} {g : Nested} {n : Nat} {rest mid ws : List Word} {s : Source.Span}
  {e t : Expr} {start : Source.Location}

theorem variableName_dollar (x : String) : variableName ("$" ++ x) = x := by
  simp [variableName]

theorem primary_atom (hg : g.Undoes st n) (h : Printable e) (hatom : isAtom e = true)
    (hn : (e.words st).length ≤ n + 1) :
    Parses (primary g) (e.words st ++ rest) rest (·.unplaced = e.unplaced) := by
  unfold primary
  refine .here fun start => .kind? ?_
  cases h with
  | var s x =>
    refine .take (.spanFrom fun _ => .pure ?_)
    simp only [Expr.unplaced, variableName_dollar]
  | literal s l => cases l <;> exact .take (.spanFrom fun _ => .pure rfl)
  | array s keys values refs =>
    rename_i is
    rw [Expr.words, Expr.itemWords_eq_map] at hn ⊢
    simp only [brackets, List.cons_append, List.append_assoc, List.nil_append, List.length_cons,
      List.length_append] at hn ⊢
    have hback : ∀ i ∈ is, ReadsBack (item g) (·.words st) Item.unplaced .rbracket i := by
      intro i hi
      refine item_readsBack hg (keys i hi) (values i hi) (refs i hi) ?_
      have := length_le_commas (List.mem_map_of_mem (f := (·.words st)) hi)
      omega
    refine .advance ?_
    rw [arrayItems_eq, bind_assoc]
    refine (arrayRounds (by decide) hback).bind fun found hfound => ?_
    rw [pure_bind]
    refine .spanFrom fun _ => .pure ?_
    rw [Expr.unplaced, Expr.unplaced, unplacedItems_eq_map, unplacedItems_eq_map, List.map_reverse,
      hfound]
    simp
  | _ => cases hatom

theorem primary_inside (hg : g.Undoes st n) (h : Printable e) (hn : (e.inside st).length ≤ n + 1) :
    Parses (primary g) (e.inside st ++ rest) rest (·.unplaced = e.unplaced) := by
  unfold Expr.inside Style.inside at hn ⊢
  split at hn
  · next hbare =>
    rw [if_pos hbare]
    exact primary_atom hg h (atom_of_isBare hbare) hn
  · next hbare =>
    rw [if_neg hbare]
    simp only [parens, List.cons_append, List.append_assoc, List.nil_append, List.length_cons,
      List.length_append] at hn ⊢
    unfold primary
    refine .here fun start => .kind? ?_
    refine .expect ((hg.whole h (by omega) (.cons rfl)).bind fun e' he' => .expect (.pure he'))

/- Nothing that comes before an operand begins like an inner expression. -/
theorem operand_inner {w : Word} {Q : Expr → Prop} (hw : isInner w.1 = true)
    (hcast : NoCast (w :: ws)) (h : Parses (postfixed g) (w :: ws) rest Q) :
    Parses (operand g) (w :: ws) rest Q := by
  obtain ⟨k, x⟩ := w
  rcases isInner_cases hw with rfl | rfl | rfl | rfl | rfl
  all_goals exact operand_parses hcast rfl rfl nofun nofun h

theorem operand_inside (h : Printable e)
    {Q : Expr → Prop} (hpost : Parses (postfixed g) (e.inside st ++ ws) rest Q) :
    Parses (operand g) (e.inside st ++ ws) rest Q := by
  have hcast := inside_noCast st h ws
  obtain ⟨w, vs, hw, hinner⟩ := inside_head st h
  rw [hw, List.cons_append] at hpost hcast ⊢
  exact operand_inner hinner hcast hpost

/- The operand on the left of an operator. -/
theorem operand_left (hg : g.Undoes st n) (h : Printable e) (hn : (e.inside st).length ≤ n + 1)
    (hws : ∀ w ∈ ws.head?, isAccess w.1 = false) :
    Parses (operand g) (e.inside st ++ ws) ws (·.unplaced = e.unplaced) :=
  operand_inside h (postfixed_parses (primary_inside hg h hn) hws)

theorem member_parses {m : String} (hm : IsIdentifier m) :
    Parses (member g) (identifierWord m :: ws) ws (·.unplaced = .ident m) := by
  have hid := identifierWord_isIdentifier hm
  unfold member
  refine .here fun start => .kind? ?_
  rcases identifierWord_kind m with hk | ⟨k, hk⟩ <;>
    simp only [List.head?_cons, Option.map_some, hk] <;>
    exact .identifier hid (.pure (by rw [identifierWord_text, Member.unplaced]))

/-- The word between an object and its member. -/
def arrowWord (nullsafe : Bool) : Word := (if nullsafe then Symbol.nullsafeArrow else .arrow).word

theorem postfixStep_property (ht : e.unplaced = t.unplaced) {m : String} (nullsafe : Bool)
    (hm : IsIdentifier m) (hrest : Closed rest) :
    Parses (postfixStep g start e) (arrowWord nullsafe :: identifierWord m :: rest) rest
      fun o => ∃ e', o = some e' ∧
        e'.unplaced = (Expr.property s t (.ident m) nullsafe).unplaced := by
  have hno : (rest.head?.map (·.1) == some (.symbol .lparen)) = false := by
    cases rest with
    | nil => rfl
    | cons w ws =>
      have hw := hrest.access w rfl
      simp only [List.head?_cons, Option.map_some, beq_eq_false_iff_ne, ne_eq, Option.some.injEq]
      rintro heq
      rw [heq] at hw
      cases hw
  unfold postfixStep
  refine .kind? ?_
  cases nullsafe
  all_goals
    refine .check (.advance ((member_parses hm).bind fun m' hm' => .check ?_))
    rw [hno]
    refine .spanFrom fun s => .pure ⟨_, rfl, ?_⟩
    rw [Expr.unplaced, ht, hm']
    rfl

theorem postfixStep_methodCall (hg : g.Undoes st n) (ht : e.unplaced = t.unplaced) {m : String}
    (nullsafe : Bool) {as : List Arg} {firstClass : Bool} (hm : IsIdentifier m)
    (hcall : IsCall as firstClass)
    (hargs : ∀ a ∈ as, Printable a.value)
    (hn : (callWords firstClass (Expr.argWords st as)).length ≤ n) :
    Parses (postfixStep g start e) (arrowWord nullsafe :: identifierWord m ::
        (callWords firstClass (Expr.argWords st as) ++ rest)) rest
      fun o => ∃ e', o = some e' ∧
        e'.unplaced = (Expr.methodCall s t (.ident m) as firstClass nullsafe).unplaced := by
  unfold postfixStep
  refine .kind? ?_
  cases nullsafe
  all_goals
    refine .check (.advance ((member_parses hm).bind fun m' hm' => .check ?_))
    refine (callArgs_undoes hg hcall hargs hn).bind ?_
    rintro ⟨as', _⟩ ⟨has, rfl⟩
    refine .spanFrom fun s => .pure ⟨_, rfl, ?_⟩
    rw [Expr.unplaced, ht, hm', has]
    rfl

theorem postfixStep_index (hg : g.Undoes st n) (ht : e.unplaced = t.unplaced) {i : Option Expr}
    (hi : ∀ e ∈ i, Printable e) (hn : (Expr.optionWords st i).length ≤ n) :
    Parses (postfixStep g start e) (brackets (Expr.optionWords st i) ++ rest) rest
      fun o => ∃ e', o = some e' ∧ e'.unplaced = (Expr.index s t i).unplaced := by
  unfold postfixStep
  simp only [brackets, List.cons_append, List.append_assoc, List.nil_append]
  refine .kind? (.advance (.check ?_))
  cases i with
  | none =>
    refine (Parses.pure rfl).bind ?_
    rintro _ rfl
    refine .expect (.spanFrom fun s => .pure ⟨_, rfl, ?_⟩)
    rw [Expr.unplaced, ht]
    rfl
  | some i =>
    have hprint := hi i rfl
    rw [Expr.optionWords, Expr.inside_def] at hn ⊢
    rw [beq_false_of_ne (inside_head_ne hprint rfl _)]
    have hindex : Parses (some <$> g.expr 0) (i.inside st ++ Symbol.rbracket.word :: rest)
        (Symbol.rbracket.word :: rest) (Expr.unplacedOption · = some i.unplaced) :=
      (hg.inside 0 hprint hn (.cons rfl)).map fun i' hi' => congrArg some hi'
    refine hindex.bind fun i' hi' => .expect (.spanFrom fun s => .pure ⟨_, rfl, ?_⟩)
    rw [Expr.unplaced, ht, hi']
    rfl

theorem postfixStep_step (ht : e.unplaced = t.unplaced) {op : UnaryOp} (hop : op.isPostfix = true) :
    Parses (postfixStep g start e) (op.symbol.word :: rest) rest
      fun o => ∃ e', o = some e' ∧ e'.unplaced = (Expr.unary s op t).unplaced := by
  unfold postfixStep
  refine .kind? ?_
  cases op
  case postInc | postDec =>
    refine .advance (.spanFrom fun s => .pure ⟨_, rfl, ?_⟩)
    rw [Expr.unplaced, Expr.unplaced, ht]
  all_goals cases hop

theorem ofName_named {name name' : Name} (h : IsClassName name)
    (heq : name'.unplaced = ⟨name.raw, none, default⟩) :
    (ClassRef.ofName name').unplaced = .named name.unplaced := by
  have hraw : name'.raw = name.raw := congrArg (·.raw) heq
  have hword (x : String) (hx : x ∈ ["self", "static", "parent"]) : name'.isWord x = false := by
    rw [Name.isWord, hraw]
    exact h.unreserved x hx
  unfold ClassRef.ofName
  rw [hword "self" (by simp), hword "static" (by simp), hword "parent" (by simp)]
  simp only [Bool.false_eq_true, if_false, ClassRef.unplaced, heq]
  rw [Name.unplaced, h.unresolved]

theorem staticMember_call (hg : g.Undoes st n) {m : String} {as : List Arg} {firstClass : Bool}
    {of : ClassRef} (hm : IsIdentifier m) (hcall : IsCall as firstClass)
    (hargs : ∀ a ∈ as, Printable a.value)
    (hn : (callWords firstClass (Expr.argWords st as)).length ≤ n) :
    Parses (staticMember g of start)
      (identifierWord m :: (callWords firstClass (Expr.argWords st as) ++ rest)) rest
      fun e => e.unplaced =
        .staticCall default of.unplaced (.ident m) (Expr.unplacedArgs as) firstClass := by
  have hid := identifierWord_isIdentifier hm
  unfold staticMember
  refine .here fun memberStart => .kind? ?_
  rcases identifierWord_kind m with hk | ⟨k, hk⟩
  all_goals
    simp only [List.head?_cons, Option.map_some, hk]
    refine .identifier hid (.check ((callArgs_undoes hg hcall hargs hn).bind ?_))
    rintro ⟨as', _⟩ ⟨has, rfl⟩
    refine .spanFrom fun s => .pure ?_
    rw [Expr.unplaced, has, identifierWord_text, Member.unplaced]

theorem primary_name {x : String} : Parses (primary g) ((.name, x) :: ws) ws
    fun e => ∃ of, e = .name of ∧ of.unplaced = ⟨x, none, default⟩ :=
  .here fun _ => .kind? (.className fun of hof => .pure ⟨of, rfl, hof⟩)

theorem postfixed_staticCall (hg : g.Undoes st n) {of : Name} {m : String} {as : List Arg}
    {firstClass : Bool} (hof : IsClassName of) (hm : IsIdentifier m) (hcall : IsCall as firstClass)
    (hargs : ∀ a ∈ as, Printable a.value)
    (hn : (callWords firstClass (Expr.argWords st as)).length ≤ n) (hrest : Closed rest) :
    Parses (postfixed g) ((.name, of.raw) :: Symbol.doubleColon.word :: identifierWord m ::
        (callWords firstClass (Expr.argWords st as) ++ rest)) rest
      (·.unplaced = (Expr.staticCall s (.named of) (.ident m) as firstClass).unplaced) := by
  refine postfixed_access primary_name ?_ ?_ hrest
  · rintro start _ ⟨of', rfl, hof'⟩
    refine .kind? (.advance ((staticMember_call hg hm hcall hargs hn).bind fun e' he' => ?_))
    refine .pure ⟨e', rfl, ?_⟩
    rw [he', classOf, ofName_named hof hof']
    rfl
  · simp
    omega

theorem optionalArgs_undoes (hg : g.Undoes st n) {as : List Arg} (hcall : IsCall as false)
    (hargs : ∀ a ∈ as, Printable a.value)
    (hn : (callWords false (Expr.argWords st as)).length ≤ n) :
    Parses (optionalArgs g) (callWords false (Expr.argWords st as) ++ rest) rest
      (Expr.unplacedArgs · = Expr.unplacedArgs as) :=
  .check ((callArgs_undoes hg hcall hargs hn).bind fun _ hr => .pure hr.1)

theorem newExpr_undoes (hg : g.Undoes st n) {name : Name} {as : List Arg} (hname : IsClassName name)
    (hcall : IsCall as false) (hargs : ∀ a ∈ as, Printable a.value)
    (hn : (callWords false (Expr.argWords st as)).length ≤ n) :
    Parses (newExpr g)
      (Keyword.kwNew.word :: (.name, name.raw) :: (callWords false (Expr.argWords st as) ++ rest))
      rest (·.unplaced = (Expr.new s (.named name) as).unplaced) := by
  unfold newExpr newClass
  refine .here fun start => .expect (.accept_other nofun ?_)
  simp only [bind_assoc]
  refine .kind? ?_
  simp only [List.head?_cons, Option.map_some, bind_assoc, pure_bind]
  refine .className fun name' hname' => ?_
  refine (optionalArgs_undoes hg hcall hargs hn).bind fun as' has => .spanFrom fun s => .pure ?_
  rw [Expr.unplaced, Expr.unplaced, has, ofName_named hname hname', ClassRef.unplaced]

theorem assignOp?_symbol (op : AssignOp) :
    assignOp? (.symbol op.symbol) = some (if op = .assignRef then .assign else op) := by
  cases op <;> rfl

theorem isAssignable_unplaced (e : Expr) : e.unplaced.isAssignable = e.isAssignable := by
  cases e <;> rfl

/- The operand on the right of an operator. -/
theorem Nested.Undoes.last (hg : g.Undoes st n) {least : Nat} {v : Expr} (hv : Printable v)
    (hn : (v.inside st).length ≤ n) (hrest : Closed rest) {make : Source.Span → Expr → Expr}
    {Q : Expr → Prop} (hmake : ∀ s v', v'.unplaced = v.unplaced → Q (make s v')) :
    Parses (do
      let value ← g.expr least
      let span ← spanFrom start
      return some (make span value)) (v.inside st ++ rest) rest
      fun o => ∃ e', o = some e' ∧ Q e' :=
  (hg.inside least hv hn hrest).bind fun v' hv' =>
    .spanFrom fun s => .pure ⟨_, rfl, hmake s v' hv'⟩

theorem operatorStep_assign (hg : g.Undoes st n) (ht : e.unplaced = t.unplaced) {v : Expr}
    (op : AssignOp) (htarget : IsTarget t) (hv : Printable v) (hn : (v.inside st).length ≤ n)
    (hrest : Closed rest) :
    Parses (operatorStep g start 0 e) (op.words ++ (v.inside st ++ rest)) rest
      fun o => ∃ e', o = some e' ∧ e'.unplaced = (Expr.assign s op t v).unplaced := by
  have hassign : e.isAssignable = true := by
    rw [← isAssignable_unplaced, ht, isAssignable_unplaced]
    cases htarget <;> rfl
  unfold operatorStep AssignOp.words
  refine .kind? ?_
  simp only [List.cons_append, List.head?_cons, Option.map_some, Symbol.word, assignOp?_symbol,
    assignStep, hassign, if_true]
  refine .advance ?_
  by_cases href : op = .assignRef
  · subst href
    exact .accept (hg.last hv hn hrest fun s v' hv' => by rw [Expr.unplaced, ht, hv']; rfl)
  · rw [if_neg href, if_neg href]
    by_cases hplain : op = .assign
    · subst hplain
      refine .accept_other (inside_head_ne hv rfl _) ?_
      exact hg.last hv hn hrest fun s v' hv' => by rw [Expr.unplaced, ht, hv']; rfl
    · rw [if_neg hplain]
      exact hg.last hv hn hrest fun s v' hv' => by rw [Expr.unplaced, ht, hv']; rfl

theorem operatorStep_ternary (hg : g.Undoes st n) (ht : e.unplaced = t.unplaced)
    {y : Option Expr} {no : Expr} (hy : ∀ e ∈ y, Printable e) (hno : Printable no)
    (hny : (Expr.optionWords st y).length ≤ n)
    (hnn : (no.inside st).length ≤ n) (hrest : Closed rest) :
    Parses (operatorStep g start 0 e) (Symbol.question.word ::
        (Expr.optionWords st y ++ Symbol.colon.word :: (no.inside st ++ rest))) rest
      fun o => ∃ e', o = some e' ∧ e'.unplaced = (Expr.ternary s t y no).unplaced := by
  unfold operatorStep ternaryStep
  refine .kind? (.advance ?_)
  cases y with
  | none => exact .accept (hg.last hno hnn hrest fun s no' hno' => by
      rw [Expr.unplaced, ht, hno']
      rfl)
  | some y =>
    have hprint := hy y rfl
    refine .accept_other (inside_head_ne hprint rfl _) ?_
    simp only [Bool.false_eq_true, if_false, pure_bind]
    refine (hg.inside 0 hprint hny (.cons rfl)).bind fun y' hy' => .expect ?_
    refine hg.last hno hnn hrest fun s no' hno' => ?_
    rw [Expr.unplaced, Expr.unplacedOption, ht, hy', hno']
    rfl

theorem unaryOp?_symbol {op : UnaryOp} (h : op.isPostfix = false) :
    ∃ power, unaryOp? (.symbol op.symbol) = some (op, power) := by
  cases op
  case postInc | postDec => cases h
  all_goals exact ⟨_, rfl⟩

theorem operand_unary (hg : g.Undoes st n) {op : UnaryOp} (hop : op.isPostfix = false)
    (h : Printable e) (hn : (e.inside st).length ≤ n) (hrest : Closed rest) :
    Parses (operand g) (op.symbol.word :: (e.inside st ++ rest)) rest
      (·.unplaced = (Expr.unary s op e).unplaced) := by
  obtain ⟨power, hpower⟩ := unaryOp?_symbol hop
  have hne : op.symbol.word.1 ≠ .symbol .lparen := by cases op <;> nofun
  unfold operand
  refine .here fun start => (castAhead_parses (noCast_of_ne hne _)).bind ?_
  rintro _ rfl
  refine .kind? ?_
  simp only [List.head?_cons, Option.map_some, Option.bind_some, Symbol.word, hpower]
  refine .advance ((hg.inside power h hn hrest).bind fun e' he' => .spanFrom fun s => .pure ?_)
  rw [Expr.unplaced, Expr.unplaced, he']

theorem expression_atom (hg : g.Undoes st n) {least : Nat} (h : Printable e)
    (hatom : isAtom e = true) (hn : (e.words st).length ≤ n + 1) (hrest : Closed rest) :
    Parses (expression g least) (e.words st ++ rest) rest (·.unplaced = e.unplaced) := by
  have hprimary : Parses (primary g) (e.words st ++ rest) rest (·.unplaced = e.unplaced) :=
    primary_atom hg h hatom hn
  obtain ⟨w, ws, hw, hinner, hne⟩ := atom_head st h hatom
  rw [hw, List.cons_append] at hprimary ⊢
  refine expression_operand (operand_inner hinner (noCast_of_ne hne _) ?_) hrest
  exact postfixed_parses hprimary hrest.access

theorem expression_inside (hg : g.Undoes st n) (least : Nat) (h : Printable e)
    (hn : (e.inside st).length ≤ n + 1) (hrest : Closed rest) :
    Parses (expression g least) (e.inside st ++ rest) rest (·.unplaced = e.unplaced) :=
  expression_operand (operand_left hg h hn hrest.access) hrest

/- The words after the first operand are fewer than all of them. -/
theorem length_tail_le {tail : List Word} (ht : Printable t)
    (hn : (t.inside st ++ tail).length ≤ n + 1) : tail.length ≤ n := by
  obtain ⟨w, vs, hw, -⟩ := inside_head st ht
  rw [hw, List.length_append, List.length_cons] at hn
  omega

theorem length_inside_le {tail : List Word} (hn : (t.inside st ++ tail).length ≤ n + 1) :
    (t.inside st).length ≤ n + 1 := by
  rw [List.length_append] at hn
  omega

/- An operand and one access to it. -/
theorem expression_access (hg : g.Undoes st n) {tail : List Word} {Q : Expr → Prop}
    (ht : Printable t) (hn : (t.inside st ++ tail).length ≤ n + 1) (htail : tail ≠ [])
    (hstep : tail.length ≤ n → ∀ start e, e.unplaced = t.unplaced →
      Parses (postfixStep g start e) (tail ++ rest) rest fun o => ∃ e', o = some e' ∧ Q e')
    (hrest : Closed rest) : Parses (expression g 0) (t.inside st ++ tail ++ rest) rest Q := by
  have hlt : rest.length < (tail ++ rest).length := by
    have := List.length_pos_iff.mpr htail
    rw [List.length_append]
    omega
  rw [List.append_assoc]
  exact expression_operand (operand_inside ht (postfixed_access
    (primary_inside hg ht (length_inside_le hn)) (hstep (length_tail_le ht hn)) hlt hrest)) hrest

/- An operand and one operator with what stands on its right. -/
theorem expression_infix (hg : g.Undoes st n) {tail : List Word} {Q : Expr → Prop}
    (ht : Printable t) (hn : (t.inside st ++ tail).length ≤ n + 1) {w : Word}
    (hw : w ∈ tail.head?) (haccess : isAccess w.1 = false)
    (hstep : tail.length ≤ n → ∀ start e, e.unplaced = t.unplaced →
      Parses (operatorStep g start 0 e) (tail ++ rest) rest fun o => ∃ e', o = some e' ∧ Q e')
    (hrest : Closed rest) : Parses (expression g 0) (t.inside st ++ tail ++ rest) rest Q := by
  obtain ⟨ws, rfl⟩ := List.head?_eq_some_iff.mp hw
  have hlt : rest.length < (w :: ws ++ rest).length := by
    rw [List.length_append, List.length_cons]
    omega
  have hhead : ∀ w' ∈ (w :: ws ++ rest).head?, isAccess w'.1 = false := by
    rintro _ ⟨⟩
    exact haccess
  rw [List.append_assoc]
  exact expression_operator (operand_left hg ht (length_inside_le hn) hhead)
    (hstep (length_tail_le ht hn)) hlt hrest

theorem expression_unary (hg : g.Undoes st n) (op : UnaryOp) (h : Printable e)
    (hn : ((Expr.unary s op e).words st).length ≤ n + 1) (hrest : Closed rest) :
    Parses (expression g 0) ((Expr.unary s op e).words st ++ rest) rest
      (·.unplaced = (Expr.unary s op e).unplaced) := by
  rw [Expr.words, Expr.inside_def] at hn ⊢
  split at hn
  · next hop =>
    rw [if_pos hop]
    exact expression_access hg h hn (List.cons_ne_nil _ _)
      (fun _ start t ht => postfixStep_step ht hop) hrest
  · next hop =>
    rw [if_neg hop]
    rw [List.length_cons] at hn
    refine expression_operand ?_ hrest
    exact operand_unary hg (Bool.eq_false_iff.mpr hop) h (by omega) hrest

theorem expression_whole (hg : g.Undoes st n) (h : Printable e)
    (hn : (e.words st).length ≤ n + 1) (hrest : Closed rest) :
    Parses (expression g 0) (e.words st ++ rest) rest (·.unplaced = e.unplaced) := by
  cases h with
  | var s x => exact expression_atom hg (.var s x) rfl hn hrest
  | literal s l => exact expression_atom hg (.literal s l) rfl hn hrest
  | array s keys values refs => exact expression_atom hg (.array s keys values refs) rfl hn hrest
  | new s name call args =>
    simp only [Expr.words, List.length_cons] at hn
    have hcast := noCast_of_ne (w := Keyword.kwNew.word) (by decide)
    refine expression_operand (operand_parses (hcast _) rfl rfl (by simp) (by simp) ?_) hrest
    refine postfixed_parses ?_ hrest.access
    exact .here fun start => .kind? (newExpr_undoes hg name call args (by omega))
  | staticCall s name member call args =>
    simp only [Expr.words, List.length_cons] at hn
    have hcast (x : String) (ws : List Word) : NoCast ((.name, x) :: ws) :=
      noCast_of_ne (by simp) ws
    refine expression_operand (operand_parses (hcast _ _) rfl rfl (by simp) (by simp) ?_) hrest
    exact postfixed_staticCall hg name member call args (by omega) hrest
  | methodCall s nullsafe target member call args =>
    rw [Expr.words, Expr.inside_def] at hn ⊢
    refine expression_access hg target hn (List.cons_ne_nil _ _) (fun hle start t ht => ?_) hrest
    simp only [List.length_cons] at hle
    exact postfixStep_methodCall hg ht nullsafe member call args (by omega)
  | property s nullsafe target member =>
    rw [Expr.words, Expr.inside_def] at hn ⊢
    exact expression_access hg target hn (List.cons_ne_nil _ _)
      (fun _ start t ht => postfixStep_property ht nullsafe member hrest) hrest
  | index s target index =>
    rw [Expr.words, Expr.inside_def] at hn ⊢
    refine expression_access hg target hn (List.cons_ne_nil _ _) (fun hle start t ht => ?_) hrest
    rw [length_brackets] at hle
    exact postfixStep_index hg ht index (by omega)
  | assign s op kind target value =>
    rw [Expr.words, Expr.inside_def, Expr.inside_def, List.append_assoc (Expr.inside st _)] at hn ⊢
    have haccess : isAccess op.symbol.word.1 = false := by cases op <;> rfl
    refine expression_infix hg target hn rfl haccess (fun hle start t ht => ?_) hrest
    rw [List.length_append] at hle
    rw [List.append_assoc]
    exact operatorStep_assign hg ht op kind value (by omega) hrest
  | binary s op left right =>
    rw [Expr.words, Expr.inside_def, Expr.inside_def] at hn ⊢
    obtain ⟨i, hi, hop⟩ := st.spells op
    refine expression_infix hg left hn rfl (Infix.ofKind?_some hi).1 (fun hle start l hl => ?_) hrest
    rw [List.length_cons] at hle
    refine (operatorStep_binary hi (Nat.zero_le _)
      (hg.inside i.rightPower right (by omega) hrest)).mono ?_
    rintro o ⟨e', rfl, s', r, rfl, hr⟩
    refine ⟨_, rfl, ?_⟩
    rw [Expr.unplaced, Expr.unplaced, hl, hr, hop]
  | unary s op operand => exact expression_unary hg op operand hn hrest
  | ternary s cond yes no =>
    rw [Expr.words, Expr.inside_def, Expr.inside_def, List.append_assoc (Expr.inside st _)] at hn ⊢
    refine expression_infix hg cond hn rfl rfl (fun hle start c hc => ?_) hrest
    simp only [List.cons_append, List.append_assoc, List.length_append, List.length_cons] at hle ⊢
    exact operatorStep_ternary hg hc yes no (by omega) (by omega) hrest

theorem levels_undo (st : Style) (n : Nat) : (levels n).Undoes st n := by
  induction n with
  | zero =>
    constructor
    · intro e rest h hn
      obtain ⟨w, ws, hw, -⟩ := words_head st h
      simp [hw] at hn
    · intro e rest least h hn
      obtain ⟨w, ws, hw, -⟩ := inside_head st h
      simp [hw] at hn
  | succ n ih =>
    exact ⟨fun h hn hrest => expression_whole ih h hn hrest,
      fun least h hn hrest => expression_inside ih least h hn hrest⟩

end

/-- Whatever the places of the tokens, the words of an expression are read to the last, and as that
expression. -/
theorem expression_undoes_printing (st : Style) (e : Expr) (h : Printable e) (ts : List Token)
    (hts : ts.map Token.word = e.words st) (n : Nat) (hn : ts.length ≤ n) :
    ∃ e' d, expression (levels n) 0 (Cursor.ofTokens ts) = .ok (e', d) ∧ d.rest = [] ∧
      e'.unplaced = e.unplaced := by
  have hlength : (e.words st).length ≤ n + 1 := by
    rw [← hts, List.length_map]
    omega
  have hparse : Parses (expression (levels n) 0) (e.words st ++ []) [] (·.unplaced = e.unplaced) :=
    expression_whole (levels_undo st n) h hlength nofun
  rw [List.append_nil] at hparse
  obtain ⟨e', d, hrun, hd, he⟩ := hparse (Cursor.ofTokens ts) hts
  exact ⟨e', d, hrun, List.map_eq_nil_iff.mp hd, he⟩

namespace Sample

/-- The symbols for the operators, and the word for exclusive or, which has no symbol. -/
def symbols : Style where
  operator
    | .add => Symbol.plus.word
    | .sub => Symbol.minus.word
    | .mul => Symbol.star.word
    | .div => Symbol.slash.word
    | .mod => Symbol.percent.word
    | .pow => Symbol.pow.word
    | .concat => Symbol.dot.word
    | .eq => Symbol.eq.word
    | .ne => Symbol.ne.word
    | .identical => Symbol.identical.word
    | .notIdentical => Symbol.notIdentical.word
    | .lt => Symbol.lt.word
    | .le => Symbol.le.word
    | .gt => Symbol.gt.word
    | .ge => Symbol.ge.word
    | .spaceship => Symbol.spaceship.word
    | .and => Symbol.ampAmp.word
    | .or => Symbol.pipePipe.word
    | .xor => Keyword.kwXor.word
    | .bitAnd => Symbol.amp.word
    | .bitOr => Symbol.pipe.word
    | .bitXor => Symbol.caret.word
    | .shl => Symbol.shl.word
    | .shr => Symbol.shr.word
    | .coalesce => Symbol.coalesce.word
  spells op := by cases op <;> exact ⟨_, rfl, rfl⟩
  bareArrays := false

/-- `($a[]) =& (($o->f(...)) ?: (["k" => & (new A(list: (-1), ...$b))]))` -/
def nested : Expr :=
  let number : Expr := .literal default (.number "1")
  let made : Expr := .new default (.named ⟨"A", none, default⟩)
    [⟨some "list", .unary default .neg number, false⟩, ⟨none, .var default "b", true⟩]
  .assign default .assignRef (.index default (.var default "a") none)
    (.ternary default
      (.methodCall default (.var default "o") (.ident "f") [] true false) none
      (.items default .array [⟨some (.literal default (.string "\"k\"")), made, true, false⟩]))

theorem nested_printable : Printable nested := by
  have hcall : IsCall [⟨some "list", .unary default .neg (.literal default (.number "1")), false⟩,
      ⟨none, .var default "b", true⟩] false := ⟨by simp [IsIdentifier], by simp⟩
  refine .assign _ _ (.index _ _ _) (.index _ (.var _ _) (by simp)) ?_
  have hclosure : IsCall [] true := ⟨by simp, by simp⟩
  have hmethod : Printable (.methodCall default (.var default "o") (.ident "f") [] true false) :=
    .methodCall _ _ (.var _ _) (by simp [IsIdentifier]) hclosure (by simp)
  refine .ternary _ hmethod (by simp) (.array _ ?_ ?_ ?_)
  · simpa using Printable.literal _ _
  · simp only [List.mem_singleton, forall_eq]
    refine .new _ ⟨rfl, by decide⟩ hcall ?_
    simpa using ⟨.unary _ _ (.literal _ _), .var _ _⟩
  · simp

def nestedTokens : List Token := (nested.words symbols).map Word.token

end Sample

theorem expression_undoes_printing_nested :
    Sample.nestedTokens.map (·.lexeme) =
      ["(", "$a", "[", "]", ")", "=", "&", "(", "(", "$o", "->", "f", "(", "...", ")", ")", "?",
        ":", "(", "[", "\"k\"", "=>", "&", "(", "new", "A", "(", "list", ":", "(", "-", "1", ")",
        ",", "...", "$b", ")", ")", "]", ")", ")"] ∧
      ∃ e' d, expression (levels Sample.nestedTokens.length) 0
          (Cursor.ofTokens Sample.nestedTokens) = .ok (e', d) ∧ d.rest = [] ∧
        e'.unplaced = Sample.nested.unplaced := by
  refine ⟨by decide +kernel, ?_⟩
  have hwords : Sample.nestedTokens.map Token.word = Sample.nested.words Sample.symbols := by
    simp [Sample.nestedTokens, Token.word, Word.token, Function.comp_def]
  exact expression_undoes_printing Sample.symbols Sample.nested Sample.nested_printable
    Sample.nestedTokens hwords _ (Nat.le_refl _)

end ContractAudit.Grammar