import ContractAudit.Grammar.Expression
import ContractAudit.Proofs.Progress

/-! Reading declarations and expressions. Main statement: if the parsers for nested parts read where
fewer than `n` tokens are left, then those for declarations and expressions read where one more is
left. -/
namespace ContractAudit.Grammar

open Source

section
variable {n : Nat}

instance : Looks atIdentifier := inferInstanceAs (Looks (peek? >>= _))

theorem identifier_reads (expected : String) : Reads n (identifier expected) := by
  intro c _
  refine .look fun ahead h => ?_
  split
  · next hahead =>
    subst hahead
    have hany : c.rest.head?.any isIdentifier = true := congrArg Prod.fst (Except.ok.inj h)
    refine take_reads ?_
    rintro hnil
    simp [hnil] at hany
  · exact .fail _

instance (expected : String) : Onward (identifier expected) :=
  onward_of_reads fun _ => identifier_reads expected

theorem className_reads : Reads n className :=
  .step fun _ => (expect_reads _ _).bind fun _ => .step fun _ => .pure

theorem classNames_reads : Reads n classNames := className_reads.sepBy1 _

instance : Onward classNames := onward_of_reads fun _ => classNames_reads

theorem typeAtom_reads : Reads n typeAtom := by
  intro c hc
  refine .look fun start _ => .look fun k hk => ?_
  split
  · next hatom =>
    cases k with
    | none => cases hatom
    | some k =>
      exact (take_reads (rest_ne_nil_of_kind? hk)).first (hc.trans n.lt_succ_self) fun _ =>
        .step fun _ => .pure
  · exact .fail _

instance : Looks atIntersection := inferInstanceAs (Looks (check _ >>= _))

theorem typeIntersection_reads : Reads n typeIntersection := by
  refine typeAtom_reads.bind fun first =>
    Moves.bind (Rounds.many (.look fun ahead => ?_)) fun _ => .pure
  split
  · exact (Reads.step fun _ => typeAtom_reads.bind fun _ => .pure).round
  · exact .stop

theorem typeTerm_reads : Reads n typeTerm := by
  refine .step fun paren => ?_
  split
  · exact typeIntersection_reads.bind fun _ => .step fun _ => .pure
  · exact typeIntersection_reads

theorem typeHint_reads : Reads n typeHint := by
  refine .step fun nullable => ?_
  split
  · exact typeAtom_reads.bind fun _ => .pure
  · refine (typeTerm_reads.sepBy1 _).bind fun hints => ?_
    split <;> exact .pure

instance : Onward typeAfterColon where
  moves n := by
    refine .step fun colon => ?_
    split
    · exact typeHint_reads.moves.map
    · exact .pure

instance {α : Type} (f : TokenKind → Option α) : Onward (manyKinds f) where
  moves n := by
    refine Rounds.many fun c hc => .look fun k hk => ?_
    split
    · next a ha =>
      cases k with
      | none => cases ha
      | some k =>
        exact Ends.round ((advance_reads (rest_ne_nil_of_kind? hk)).bind fun _ _ hd => .pure hd)
    · exact .pure ⟨le_rfl, by simp⟩

instance (default : UseKind) : Onward (useKind default) where
  moves n := by
    refine .step fun function => ?_
    split
    · exact .pure
    · refine .step fun const => ?_
      split <;> exact .pure

instance : Onward useAlias where
  moves n := by
    refine .step fun named => ?_
    split
    · exact (identifier_reads _).moves.map
    · exact .pure

theorem importedName_reads : Reads n importedName := (expect_reads _ _).map

theorem groupedUse_reads (start : Location) (kind : UseKind) (base : String) :
    Reads n (groupedUse start kind base) :=
  .step fun _ => importedName_reads.bind fun _ => .step fun _ => .step fun _ => .pure

theorem useClause_reads (start : Location) (kind : UseKind) : Reads n (useClause start kind) := by
  refine importedName_reads.bind fun base => .step fun backslash => .step fun brace => ?_
  split
  · exact .step fun _ => .step fun _ => ((groupedUse_reads _ _ _).commaList _).bind fun _ =>
      .step fun _ => .pure
  · exact .step fun _ => .step fun _ => .pure

theorem useDecl_reads : Reads n useDecl :=
  .step fun _ => (expect_reads _ _).bind fun _ => .step fun _ =>
    ((useClause_reads _ _).sepBy1 _).moves.bind fun _ => .step fun _ => .pure

end

instance : Looks atUntypedParam := inferInstanceAs (Looks (kind? >>= _))

instance : Looks atTypeDecl := inferInstanceAs (Looks (get >>= _))

/-- The parsers for nested parts read where fewer than `n` tokens are left. -/
structure Nested.Reads (n : Nat) (g : Nested) : Prop where
  expr : ∀ least, Grammar.Reads n (g.expr least)
  primary : Grammar.Reads n g.primary
  stmt : Grammar.Reads n g.stmt

section
variable {n : Nat} {g : Nested} (hg : g.Reads n) {c : Cursor}
include hg

theorem param_reads : Reads n (param g) := by
  refine .step fun start => .step fun _ => .step fun promoted => .step fun untyped => ?_
  extract_lets typed
  have htyped : ∀ hint, Reads n (typed hint) := by
    intro hint
    exact .step fun byRef => .step fun variadic => (expect_reads _ _).bind fun lexeme =>
      .step fun assigned => .optional (hg.expr 0).moves fun _ => .step fun _ => .pure
  split
  · exact .skip .pure htyped
  · exact .skip typeHint_reads.moves.map htyped

theorem params_reads : Reads (n + 1) (params g) :=
  (expect_reads _ _).first fun _ => ((param_reads hg).commaList _).bind fun _ =>
    .step fun _ => .pure

theorem block_reads : Reads (n + 1) (block g) := by
  refine .step fun start => (expect_reads _ _).first fun _ => ?_
  refine Moves.bind (Rounds.many (.look fun closed => ?_)) fun _ => .step fun _ =>
    .step fun _ => .pure
  split
  · exact .stop
  · refine .look fun ended => ?_
    extract_lets inner
    have hinner : Reads n (inner ()) := hg.stmt.bind fun _ => .pure
    split
    · exact (Reads.step fun _ => hinner).round
    · exact hinner.round

theorem method_reads (modifiers : List Modifier) (doc : Option String) (start : Location) :
    Reads (n + 1) (method g modifiers doc start) := by
  refine (expect_reads _ _).first fun _ => .step fun byRef => .step fun name =>
    (params_reads hg).later.moves.bind fun params => .step fun returnType => .step fun brace => ?_
  extract_lets last
  have hlast : ∀ body, Moves n (last body) := fun _ => .step fun _ => .pure
  split
  · exact (block_reads hg).later.moves.map.bind hlast
  · exact .step fun _ => Moves.pure.bind hlast

omit hg in
theorem traitUse_reads (hne : c.rest ≠ []) : ReadsAt traitUse c := by
  refine (advance_reads hne).first c.rest.length.lt_succ_self fun _ => .step fun names =>
    .step fun brace => ?_
  extract_lets last
  have hlast : Moves c.rest.length (last ()) := .pure
  split
  · exact .step fun _ => hlast
  · exact .step fun _ => hlast

theorem classMember_reads : Reads (n + 1) (classMember g) := by
  refine .step fun start => .step fun before => .step fun _ => .step fun next => ?_
  intro c hc
  refine .look fun k hk => ?_
  split
  · exact traitUse_reads (rest_ne_nil_of_kind? hk)
  · exact (skipStatement_reads.first fun _ => .pure) c hc
  · refine Reads.step (fun modifiers => .step fun function => ?_) c hc
    split
    · exact (method_reads hg _ _ _).first fun _ => .pure
    · exact skipStatement_reads.first fun _ => .pure

theorem classBody_reads : Reads (n + 1) (classBody g) := by
  refine (expect_reads _ _).first fun _ => ?_
  refine Moves.bind (Rounds.many (.look fun closed => ?_)) fun _ => .step fun _ => .pure
  split
  · exact .stop
  · refine .look fun ended => ?_
    extract_lets inner
    have hinner : Reads n (inner ()) := (classMember_reads hg).later.bind fun _ => .pure
    split
    · exact (Reads.step fun _ => hinner).round
    · exact hinner.round

theorem typeDecl_reads (doc : Option String) : Reads (n + 1) (typeDecl g doc) := by
  refine .step fun start => .step fun modifiers => ?_
  intro c hc
  refine .look fun word hword => ?_
  split
  · exact .fail _
  · next kind hkind =>
    obtain ⟨t, rfl, -⟩ := Option.bind_eq_some_iff.mp hkind
    refine (advance_reads (rest_ne_nil_of_peek? hword)).first hc fun _ => .step fun name => ?_
    -- what follows the parents, and the parents with what follows them
    extract_lets headed rest
    have hheaded : ∀ parents, Moves n (headed parents) := by
      intro parents
      refine .step fun implementing => ?_
      extract_lets body
      have hbody : ∀ interfaces, Moves n (body interfaces) := fun _ =>
        (classBody_reads hg).later.moves.bind fun _ => .step fun _ => .pure
      split
      · exact .step hbody
      · exact .step hbody
    have hrest : Moves n (rest ()) := by
      refine .step fun extended => ?_
      split
      · exact .step hheaded
      · exact .step hheaded
    split
    · exact .step fun _ => hrest
    · exact hrest

theorem functionDecl_reads : Reads (n + 1) (functionDecl g) :=
  (expect_reads _ _).first fun _ => .step fun _ => .step fun _ =>
    (params_reads hg).later.moves.bind fun _ => .step fun _ =>
      (block_reads hg).later.moves.bind fun _ => .pure

theorem parenExpr_reads : Reads (n + 1) (parenExpr g) :=
  (expect_reads _ _).first fun _ => (hg.expr 0).moves.bind fun _ => .step fun _ => .pure

theorem exprList_moves (close : TokenKind) : Moves n (exprList g close) := (hg.expr 0).commaList _

theorem arg_reads : Reads n (arg g) := by
  refine .step fun spread => .step fun named => .step fun colon => ?_
  split
  · exact .step fun _ => .step fun _ => (hg.expr 0).bind fun _ => .pure
  · exact (hg.expr 0).bind fun _ => .pure

theorem callArgs_reads : Reads (n + 1) (callArgs g) := by
  refine (expect_reads _ _).first fun _ => .step fun dots => .step fun closed => ?_
  extract_lets firstClass last
  have hlast : ∀ args, Moves n (last args) := fun _ => .step fun _ => .pure
  split
  · exact .step fun _ => Moves.pure.bind hlast
  · exact ((arg_reads hg).commaList _).bind hlast

theorem optionalArgs_moves : Moves n (optionalArgs g) := by
  refine .step fun present => ?_
  split
  · exact (callArgs_reads hg).later.moves.bind fun _ => .pure
  · exact .pure

theorem item_reads : Reads n (item g) := by
  refine .step fun spread => (hg.expr 0).bind fun first => .step fun keyed => ?_
  split
  · exact .step fun _ => (hg.expr 0).moves.bind fun _ => .pure
  · exact .pure

/- A round reads the closing bracket, a comma or an item. -/
theorem arrayItems_moves (close : TokenKind) : Moves n (arrayItems g close) := by
  refine (Rounds.iterate (fun found => ?_) _).bind fun _ => .pure
  dsimp only
  split
  · exact .stop
  · refine .accept .pure (.accept .pure ?_ n.le_succ) n.le_succ
    refine ((item_reads hg).bind fun i => .step fun more => ?_).round
    split
    · exact .pure
    · exact .step fun _ => .pure

theorem member_reads : Reads (n + 1) (member g) := by
  refine .step fun start => ?_
  intro c hc
  refine .look fun k hk => ?_
  split
  · exact (take_reads (rest_ne_nil_of_kind? hk)).first hc fun _ => .step fun _ => .pure
  · exact (advance_reads (rest_ne_nil_of_kind? hk)).first hc fun _ =>
      (hg.expr 0).moves.bind fun _ => .step fun _ => .pure
  · exact ((identifier_reads _).first fun _ => .pure) c hc

theorem armConditions_reads : Reads n (armConditions g) := by
  refine (hg.expr 0).bind fun first => Moves.bind (Rounds.many ?_) fun _ => .pure
  refine .accept (.step fun arrow => ?_) .stop n.le_succ
  split
  · exact .pure
  · exact (hg.expr 0).moves.bind fun _ => .pure

theorem arm_reads : Reads n (arm g) := by
  refine .step fun default => ?_
  split
  · exact (expect_reads _ _).bind fun _ => (hg.expr 0).moves.bind fun _ => .pure
  · exact (armConditions_reads hg).bind fun _ => .step fun _ =>
      (hg.expr 0).moves.bind fun _ => .pure

theorem matchExpr_reads : Reads (n + 1) (matchExpr g) :=
  .step fun _ => (expect_reads _ _).first fun _ => (parenExpr_reads hg).later.moves.bind fun _ =>
    .step fun _ => ((arm_reads hg).commaList _).bind fun _ => .step fun _ => .step fun _ => .pure

theorem newClassExpr_reads : Reads n (newClassExpr g) := by
  refine .step fun start => hg.primary.bind fun first => Rounds.iterate (fun e c hc => ?_) first
  refine .look fun k hk => ?_
  split
  case h_1 | h_2 =>
    refine Ends.round (.look fun nullsafe _ => ?_)
    exact (advance_reads (rest_ne_nil_of_kind? hk)).first (hc.trans n.lt_succ_self) fun _ =>
      (member_reads hg).later.moves.bind fun _ => .step fun _ => .pure
  case h_3 =>
    refine .look fun var _ => ?_
    split
    · exact ((advance_reads (rest_ne_nil_of_kind? hk)).first (hc.trans n.lt_succ_self) fun _ =>
        .step fun _ => .step fun _ => .pure).round
    · exact .pure ⟨le_rfl, by simp⟩
  case h_4 =>
    exact ((advance_reads (rest_ne_nil_of_kind? hk)).first (hc.trans n.lt_succ_self) fun _ =>
      (hg.expr 0).moves.bind fun _ => .step fun _ => .step fun _ => .pure).round
  case h_5 => exact .pure ⟨le_rfl, by simp⟩

omit hg in
theorem staticRef_reads (hne : c.rest ≠ []) : ReadsAt staticRef c :=
  .look fun _ _ => (advance_reads hne).first c.rest.length.lt_succ_self fun _ =>
    .step fun _ => .pure

theorem newClass_reads : Reads n (newClass g) := by
  intro c hc
  refine .look fun k hk => ?_
  split
  · exact (className_reads.bind fun _ => .pure) c hc
  · exact staticRef_reads (rest_ne_nil_of_kind? hk)
  · exact ((parenExpr_reads hg).later.bind fun _ => .pure) c hc
  case h_4 | h_5 => exact ((newClassExpr_reads hg).bind fun _ => .pure) c hc
  · exact .fail _

theorem anonymousClass_moves : Moves n (anonymousClass g) := by
  refine (optionalArgs_moves hg).bind fun args => .step fun extended => ?_
  extract_lets body rest
  have hbody : Moves n (body ()) := (classBody_reads hg).later.moves.bind fun _ => .pure
  have hrest : Moves n (rest ()) := by
    refine .step fun implementing => ?_
    split
    · exact .step fun _ => hbody
    · exact hbody
  split
  · exact .step fun _ => hrest
  · exact hrest

theorem newExpr_reads : Reads (n + 1) (newExpr g) := by
  refine .step fun start => (expect_reads _ _).first fun _ => .step fun anonymous => ?_
  split
  · exact (anonymousClass_moves hg).bind fun _ => .step fun _ => .pure
  · exact (newClass_reads hg).moves.bind fun _ => (optionalArgs_moves hg).bind fun _ =>
      .step fun _ => .pure

omit hg in
instance : Onward captured where
  moves n := by
    refine .step fun capturing => ?_
    split
    · refine .step fun _ => Moves.bind (Reads.commaList _ ?_) fun _ => .step fun _ => .pure
      exact .step fun _ => expect_reads _ _
    · exact .pure

theorem closure_reads : Reads (n + 1) (closure g) := by
  refine .step fun start => .step fun _ => .accept ?_ ?_
  · exact .step fun _ => (params_reads hg).later.moves.bind fun _ => .step fun _ => .step fun _ =>
      (hg.expr 0).moves.bind fun _ => .step fun _ => .pure
  · exact (expect_reads _ _).first fun _ => .step fun _ => (params_reads hg).later.moves.bind
      fun _ => .step fun _ => .step fun _ => (block_reads hg).later.moves.bind fun _ =>
        .step fun _ => .pure

theorem variableVariable_moves : Moves n (variableVariable g) := by
  refine .step fun braces => ?_
  split
  · exact (hg.expr 0).moves.bind fun _ => .step fun _ => .pure
  · exact hg.primary.moves

theorem primary_reads : Reads (n + 1) (primary g) := by
  refine .step fun start => ?_
  intro c hc
  refine .look fun k hk => ?_
  cases k with
  | none => exact .fail _
  | some k =>
    have hnext := advance_reads (rest_ne_nil_of_kind? hk)
    have htaken := take_reads (rest_ne_nil_of_kind? hk)
    split
    case h_1 => contradiction
    case h_2 | h_4 | h_5 | h_6 => exact htaken.first hc fun _ => .step fun _ => .pure
    case h_3 =>
      exact hnext.first hc fun _ => (variableVariable_moves hg).bind fun _ => .step fun _ => .pure
    case h_7 => exact parenExpr_reads hg c hc
    case h_8 =>
      exact hnext.first hc fun _ => (arrayItems_moves hg _).bind fun _ => .step fun _ => .pure
    case h_9 =>
      refine .look fun paren _ => ?_
      split
      · exact hnext.first hc fun _ => .step fun _ => (arrayItems_moves hg _).bind fun _ =>
          .step fun _ => .pure
      · exact .fail _
    case h_10 =>
      exact hnext.first hc fun _ => .step fun _ => (arrayItems_moves hg _).bind fun _ =>
        .step fun _ => .pure
    case h_11 =>
      exact hnext.first hc fun _ => .step fun _ => (exprList_moves hg _).bind fun _ =>
        .step fun _ => .step fun _ => .pure
    case h_12 =>
      exact hnext.first hc fun _ => (parenExpr_reads hg).later.moves.bind fun _ =>
        .step fun _ => .pure
    case h_13 => exact matchExpr_reads hg c hc
    case h_14 => exact newExpr_reads hg c hc
    case h_15 | h_16 => exact closure_reads hg c hc
    case h_17 =>
      refine .look fun next _ => ?_
      split
      · exact closure_reads hg c hc
      · exact hnext.first hc fun _ => .step fun _ => .pure
    case h_18 => exact (className_reads.bind fun _ => .pure) c hc
    case h_19 => exact .fail _

theorem staticMember_reads (of : ClassRef) (start : Location) :
    Reads (n + 1) (staticMember g of start) := by
  refine .step fun memberStart => ?_
  intro c hc
  refine .look fun k hk => ?_
  split
  · refine (take_reads (rest_ne_nil_of_kind? hk)).first hc fun _ => .step fun _ =>
      .step fun call => ?_
    split
    · exact (callArgs_reads hg).later.moves.bind fun _ => .step fun _ => .pure
    · exact .step fun _ => .pure
  · exact (advance_reads (rest_ne_nil_of_kind? hk)).first hc fun _ =>
      (hg.expr 0).moves.bind fun _ => .step fun _ =>
        (callArgs_reads hg).later.moves.bind fun _ => .step fun _ => .pure
  · refine Reads.first (identifier_reads _) (fun name => .step fun call => ?_) c hc
    split
    · exact (callArgs_reads hg).later.moves.bind fun _ => .step fun _ => .pure
    · exact .step fun _ => .pure

theorem postfixStep_rounds (start : Location) (e : Expr) :
    Rounds (n + 1) (postfixStep g start e) := by
  intro c hc
  refine .look fun k hk => ?_
  split
  case h_1 | h_2 =>
    refine Ends.round (.look fun nullsafe _ => ?_)
    refine (advance_reads (rest_ne_nil_of_kind? hk)).first hc fun _ =>
      (member_reads hg).later.moves.bind fun m => .step fun call => ?_
    split
    · exact (callArgs_reads hg).later.moves.bind fun _ => .step fun _ => .pure
    · exact .step fun _ => .pure
  case h_3 =>
    exact ((advance_reads (rest_ne_nil_of_kind? hk)).first hc fun _ =>
      (staticMember_reads hg _ _).later.moves.bind fun _ => .pure).round
  case h_4 => exact ((callArgs_reads hg).first fun _ => .step fun _ => .pure).round c hc
  case h_5 =>
    refine Ends.round ((advance_reads (rest_ne_nil_of_kind? hk)).first hc fun _ =>
      .step fun bare => ?_)
    extract_lets last
    have hlast : ∀ i, Moves n (last i) := fun _ => .step fun _ => .step fun _ => .pure
    split
    · exact Moves.pure.bind hlast
    · exact (hg.expr 0).moves.map.bind hlast
  case h_6 | h_7 =>
    exact ((advance_reads (rest_ne_nil_of_kind? hk)).first hc fun _ => .step fun _ => .pure).round
  case h_8 => exact .pure ⟨le_rfl, by simp⟩

theorem postfixed_reads : Reads (n + 1) (postfixed g) :=
  (primary_reads hg).bind fun _ => Rounds.iterate (postfixStep_rounds hg _) _

omit hg in
instance : Looks castAhead where
  looks c := by
    obtain ⟨_ | ⟨a, _ | ⟨t, _ | ⟨b, ts⟩⟩⟩, last⟩ := c
    case cons.cons.cons => exact Looks.looks (p := ite _ (pure (some _)) (pure none)) _
    all_goals exact ⟨none, rfl⟩

omit hg in
theorem rest_ne_nil_of_castAhead {type : String} (h : castAhead c = .ok (some type, c)) :
    c.rest ≠ [] := by
  obtain ⟨rest, last⟩ := c
  rintro rfl
  cases h

omit hg in
instance : Looks atYieldEnd := inferInstanceAs (Looks (kind? >>= _))

theorem yieldExpr_reads : Reads (n + 1) (yieldExpr g) := by
  refine .step fun start => (expect_reads _ _).first fun _ => .step fun fromAll => ?_
  split
  · exact .step fun _ => (hg.expr _).moves.bind fun _ => .step fun _ => .pure
  · refine .step fun ends => ?_
    split
    · exact .step fun _ => .pure
    · refine (hg.expr _).moves.bind fun first => .step fun keyed => ?_
      split
      · exact (hg.expr _).moves.bind fun _ => .step fun _ => .pure
      · exact .step fun _ => .pure

theorem operand_reads : Reads (n + 1) (operand g) := by
  intro c hc
  refine .look fun start _ => .look fun type htype => ?_
  split
  · exact (advance_reads (rest_ne_nil_of_castAhead htype)).first hc fun _ => .step fun _ =>
      .step fun _ => (hg.expr _).moves.bind fun _ => .step fun _ => .pure
  · refine .look fun k hk => ?_
    split
    · next h =>
      obtain ⟨k, rfl, -⟩ := Option.bind_eq_some_iff.mp h
      exact (advance_reads (rest_ne_nil_of_kind? hk)).first hc fun _ =>
        (hg.expr _).moves.bind fun _ => .step fun _ => .pure
    · refine .look fun k hk => ?_
      split
      · next h =>
        obtain ⟨k, rfl, -⟩ := Option.bind_eq_some_iff.mp h
        exact (advance_reads (rest_ne_nil_of_kind? hk)).first hc fun _ =>
          (hg.expr _).moves.bind fun _ => .step fun _ => .pure
      · refine .look fun k hk => ?_
        split
        · exact (advance_reads (rest_ne_nil_of_kind? hk)).first hc fun _ =>
            (hg.expr _).moves.bind fun _ => .step fun _ => .pure
        · exact yieldExpr_reads hg c hc
        · exact postfixed_reads hg c hc

theorem instanceOfClass_reads : Reads n (instanceOfClass g) := by
  intro c hc
  refine .look fun k hk => ?_
  split
  · exact (className_reads.bind fun _ => .pure) c hc
  · exact staticRef_reads (rest_ne_nil_of_kind? hk)
  · exact ((hg.expr _).bind fun _ => .pure) c hc

theorem assignStep_round (start : Location) (e : Expr) (op : AssignOp) (hne : c.rest ≠ [])
    (hc : c.rest.length < n + 1) : RoundAt (assignStep g start e op) c := by
  unfold assignStep
  split
  · refine Ends.round ((advance_reads hne).first hc fun _ => ?_)
    extract_lets last
    have hlast : ∀ op, Moves n (last op) :=
      fun _ => (hg.expr _).moves.bind fun _ => .step fun _ => .pure
    split
    · refine .step fun byRef => ?_
      split
      · exact Moves.pure.bind hlast
      · exact Moves.pure.bind hlast
    · exact Moves.pure.bind hlast
  · exact .pure ⟨le_rfl, by simp⟩

theorem ternaryStep_round (start : Location) (least : Nat) (e : Expr) (hne : c.rest ≠ [])
    (hc : c.rest.length < n + 1) : RoundAt (ternaryStep g start least e) c := by
  unfold ternaryStep
  split
  · exact .pure ⟨le_rfl, by simp⟩
  · refine Ends.round ((advance_reads hne).first hc fun _ => .step fun short => ?_)
    extract_lets last
    have hlast : ∀ yes, Moves n (last yes) :=
      fun _ => (hg.expr _).moves.bind fun _ => .step fun _ => .pure
    split
    · exact Moves.pure.bind hlast
    · exact (hg.expr 0).moves.bind fun _ => .step fun _ => Moves.pure.bind hlast

theorem operatorStep_rounds (start : Location) (least : Nat) (e : Expr) :
    Rounds (n + 1) (operatorStep g start least e) := by
  intro c hc
  refine .look fun k hk => ?_
  cases k with
  | none => exact .pure ⟨le_rfl, by simp⟩
  | some k =>
    have hne := rest_ne_nil_of_kind? hk
    dsimp only
    split
    · exact assignStep_round hg start e _ hne hc
    · split
      · exact ternaryStep_round hg start least e hne hc
      · split
        · split
          · exact .pure ⟨le_rfl, by simp⟩
          · exact ((advance_reads hne).first hc fun _ => (instanceOfClass_reads hg).moves.bind
              fun _ => .step fun _ => .pure).round
        · split
          · split
            · exact ((advance_reads hne).first hc fun _ => (hg.expr _).moves.bind fun _ =>
                .step fun _ => .pure).round
            · exact .pure ⟨le_rfl, by simp⟩
          · exact .pure ⟨le_rfl, by simp⟩

theorem expression_reads (least : Nat) : Reads (n + 1) (expression g least) :=
  .step fun start => (operand_reads hg).bind fun _ =>
    Rounds.iterate (operatorStep_rounds hg start least) _

end

end ContractAudit.Grammar
