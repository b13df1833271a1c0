import ContractAudit.Proofs.DeclarationSpans

/-! The spans of expressions as they are read. Main statement: the nodes of an expression are well
nested and lie in the stretch that is read, if those of the nested parts do. -/
namespace ContractAudit.Grammar

open Source

@[simp]
theorem parts_ofName (n : Name) : (ClassRef.ofName n).parts = [n.outline] := by
  unfold ClassRef.ofName
  repeat' split
  all_goals rfl

theorem staticRef_gives : Gives ClassRef.parts staticRef :=
  .here fun _ => .token fun _ _ => .close (by simp) (fun _ => rfl) (by simp)

instance : Passes captured := by
  have hvars : Passes (commaList Symbol.rparen do
      let _ ← accept Symbol.amp
      expect .var "captured variable") := by
    refine .bind (.iterate (fun found => ?_) _) fun _ => inferInstance
    infer_instance
  unfold captured
  infer_instance

section
variable {g : Nested} (hg : g.Gives)
include hg

theorem parenExpr_gives : Gives (fun e => [e.outline]) (parenExpr g) :=
  fun _ => .skip fun _ => (hg.expr 0).bind fun _ => .skip fun _ => .pure (by simp)

theorem exprList_gives (close : TokenKind) :
    Gives (fun es => es.flatMap fun e => [e.outline]) (exprList g close) :=
  fun start => (hg.expr 0 start).commaList _

theorem arg_gives : Gives Arg.parts (arg g) := by
  refine fun _ => .skip fun spread => .skip fun named => .skip fun colon => ?_
  split
  · exact .skip fun name => .skip fun _ => (hg.expr 0).bind fun e =>
      .pure (by simp)
  · exact (hg.expr 0).bind fun e => .pure (by simp)

theorem callArgs_gives : Gives (fun r => r.1.flatMap Arg.parts) (callArgs g) := by
  refine fun start => .skip fun _ => .skip fun dots => .skip fun closed => ?_
  extract_lets firstClass rest
  have hrest : ∀ as : List Arg, Lays start (as.flatMap Arg.parts ++ [])
      (fun r : List Arg × Bool => r.1.flatMap Arg.parts) (rest as) :=
    fun as => .skip fun _ => .pure (by simp)
  split
  · exact .skip fun _ => Gives.bind (.empty (by simp)) hrest
  · exact ((arg_gives hg start).commaList _).next hrest

theorem optionalArgs_gives : Gives (fun as => as.flatMap Arg.parts) (optionalArgs g) := by
  refine fun _ => .skip fun present => ?_
  split
  · exact (callArgs_gives hg).bind fun r => .pure (by simp)
  · exact .pure (by simp)

theorem item_gives : Gives Item.parts (item g) := by
  refine fun _ => .skip fun spread => (hg.expr 0).bind fun first => .skip fun keyed => ?_
  split
  · exact .skip fun byRef => (hg.expr 0).bind fun e => .pure (by simp)
  · exact .pure (by simp)

theorem arrayItems_gives (close : TokenKind) :
    Gives (fun is => is.flatMap Item.parts) (arrayItems g close) := by
  intro start
  refine (Lays.iterate (q := fun found : List Item × Bool => found.1.flatMap Item.parts) ?_
    ([], true)).seq fun found => .pure (by simp [List.subset_def])
  intro found
  dsimp only
  split
  · exact .pure (by simp)
  · refine .skip fun closed => ?_
    split
    · exact .pure (by simp)
    · refine .skip fun slot => ?_
      split
      · exact .pure (by simp)
      · refine (item_gives hg).bind fun i => .skip fun more => ?_
        split
        · exact .pure (by simp)
        · exact .skip fun _ => .pure (by simp)

theorem member_gives : Gives Member.parts (member g) := by
  refine .here fun start => .skip fun k => ?_
  split
  · exact .token fun lexeme _ => .close (by simp) (fun _ => rfl) (by simp)
  · exact .skip fun _ => (hg.expr 0).bind fun e => .skip fun _ =>
      .pure (by simp)
  · exact .skip fun name => .pure (by simp)

theorem armConditions_gives :
    Gives (fun es => es.flatMap fun e => [e.outline]) (armConditions g) := by
  intro start
  refine (hg.expr 0).bind fun first => ?_
  refine (Lays.many (q := fun e : Expr => [e.outline]) (.skip fun comma => ?_)).next
    fun others => .pure (by simp)
  split
  · refine .skip fun arrow => ?_
    split
    · exact .pure (by simp)
    · exact (hg.expr 0).bind fun e => .pure (by simp)
  · exact .pure (by simp)

theorem arm_gives : Gives Arm.parts (arm g) := by
  refine fun _ => .skip fun default => ?_
  split
  · exact .skip fun _ => (hg.expr 0).bind fun e => .pure (by simp)
  · exact (armConditions_gives hg).bind fun es => .skip fun _ => (hg.expr 0).bind fun e =>
      .pure (by simp [← List.map_eq_flatMap])

theorem matchExpr_gives : Gives (fun e => [e.outline]) (matchExpr g) :=
  .here fun start => .skip fun _ => (parenExpr_gives hg).bind fun e => .skip fun _ =>
    ((arm_gives hg _).commaList _).next fun arms => .skip fun _ =>
      .close (by simp) (fun _ => rfl) (by simp)

theorem newClassExpr_gives : Gives (fun e => [e.outline]) (newClassExpr g) := by
  refine .here fun start => hg.primary.bind fun first => ?_
  refine Lays.iterate (q := fun e : Expr => [e.outline]) (fun e => .skip fun k => ?_) first
  split
  case h_1 | h_2 =>
    exact .skip fun nullsafe => .skip fun _ => (member_gives hg).bind fun m =>
      .close (by simp) (fun _ => rfl) (by simp)
  case h_3 =>
    refine .skip fun var => ?_
    split
    · exact .skip fun _ => .skip fun lexeme =>
        .close (by simp) (fun _ => rfl) (by simp)
    · exact .pure (by simp)
  case h_4 =>
    exact .skip fun _ => (hg.expr 0).bind fun i => .skip fun _ =>
      .close (by simp) (fun _ => rfl) (by simp)
  case h_5 => exact .pure (by simp)

theorem newClass_gives : Gives ClassRef.parts (newClass g) := by
  refine fun start => .skip fun k => ?_
  split
  · exact className_gives.bind fun n => .pure (by simp)
  · exact staticRef_gives start
  · exact (parenExpr_gives hg).bind fun e => .pure (by simp)
  case h_4 | h_5 =>
    exact (newClassExpr_gives hg).bind fun e => .pure (by simp)
  · exact .fail _

theorem anonymousClass_gives : Gives (fun as => as.flatMap Arg.parts) (anonymousClass g) := by
  have := classNames_gives.passes
  have := (classBody_gives hg).passes
  exact fun _ => (optionalArgs_gives hg).bind fun as => .skip fun extended =>
    .perhaps (.skip fun implementing => .perhaps (.skip fun _ => .pure (by simp)))

theorem newExpr_gives : Gives (fun e => [e.outline]) (newExpr g) := by
  refine .here fun start => .token fun _ o => .skip fun anonymous => ?_
  split
  · refine (anonymousClass_gives hg).bind fun as => .close_of (by simp) fun s hs hfound => ?_
    have hclass : Fits s.start.offset s.finish.offset [.node s []] :=
      .singleton_node .nil hs le_rfl le_rfl
    have hargs : Fits s.start.offset s.finish.offset (as.flatMap Arg.parts) :=
      hfound.subset (by simp)
    refine Fits.singleton_node (s := s) ?_ hs le_rfl le_rfl
    simpa using hclass.append hargs
  · exact (newClass_gives hg).bind fun r => (optionalArgs_gives hg).bind fun as =>
      .close (by simp) (fun _ => rfl) (by simp)

theorem closure_gives : Gives (fun e => [e.outline]) (closure g) := by
  refine .here fun start => .skip fun _ => .skip fun arrow => ?_
  have := (hg.expr 0).passes
  have := (params_gives hg).passes
  have := typeAfterColon_gives.passes
  have := (block_gives hg).passes
  split
  · exact .skip fun _ => .skip fun _ => .skip fun _ => .token fun _ _ => .skip fun _ =>
      .close (by simp) (fun _ => rfl) (by simp)
  · exact .token fun _ _ => .skip fun _ => .skip fun _ => .skip fun _ => .skip fun _ =>
      .skip fun _ => .close (by simp) (fun _ => rfl) (by simp)

theorem variableVariable_gives : Gives (fun e => [e.outline]) (variableVariable g) := by
  refine fun start => .skip fun braces => ?_
  split
  · exact (hg.expr 0).bind fun e => .skip fun _ => .pure (by simp)
  · exact hg.primary start

theorem primary_gives : Gives (fun e => [e.outline]) (primary g) := by
  refine .here fun start => .skip fun k => ?_
  split
  case h_1 | h_19 => exact .fail _
  case h_2 | h_4 | h_5 | h_6 =>
    exact .token fun lexeme _ => .close (by simp) (fun _ => rfl) (by simp)
  case h_3 =>
    exact .skip fun _ => (variableVariable_gives hg).bind fun e =>
      .close (by simp) (fun _ => rfl) (by simp)
  case h_7 => exact parenExpr_gives hg _
  case h_8 =>
    exact .token fun _ _ => (arrayItems_gives hg _).bind fun is =>
      .close (by simp) (fun _ => rfl) (by simp)
  case h_9 =>
    refine .skip fun paren => ?_
    split
    · exact .token fun _ _ => .skip fun _ => (arrayItems_gives hg _).bind fun is =>
        .close (by simp) (fun _ => rfl) (by simp)
    · exact .fail _
  case h_10 =>
    exact .token fun _ _ => .skip fun _ => (arrayItems_gives hg _).bind fun is =>
      .close (by simp) (fun _ => rfl) (by simp)
  case h_11 =>
    exact .token fun _ _ => .skip fun _ => (exprList_gives hg _).bind fun es => .skip fun _ =>
      .close (by simp) (fun _ => rfl) (by simp [← List.map_eq_flatMap])
  case h_12 =>
    exact .skip fun _ => (parenExpr_gives hg).bind fun e =>
      .close (by simp) (fun _ => rfl) (by simp)
  case h_13 => exact matchExpr_gives hg _
  case h_14 => exact newExpr_gives hg _
  case h_15 | h_16 => exact closure_gives hg _
  case h_17 =>
    refine .skip fun next => ?_
    split
    · exact closure_gives hg _
    · refine .token fun _ _ => .close_of (by simp) fun s hs hfound => ?_
      exact Fits.wrap (o := .node s []) (.singleton_node .nil hs le_rfl le_rfl)
  case h_18 =>
    exact className_gives.bind fun n => .pure_of fun finish h =>
      Fits.wrap (o := n.outline) (h.subset (by simp))

omit hg in
/- A name is no node but the class that it names is. -/
theorem classOf_fits {start finish : Nat} {e : Expr} (h : Fits start finish [e.outline]) :
    Fits start finish (classOf e).parts := by
  cases e with
  | name n =>
    rw [classOf, parts_ofName]
    exact h.parts
  | _ => exact h

theorem staticMember_gives (r : ClassRef) (start : Location) :
    Lays start.offset r.parts (fun e => [e.outline]) (staticMember g r start) := by
  refine .here fun c => .look fun k => ?_
  split
  · refine .leaf fun lexeme s => .skip fun call => ?_
    split
    · exact (callArgs_gives hg).bind fun args =>
        .close (by simp) (fun _ => rfl) (by simp [Expr.span])
    · exact .close (by simp) (fun _ => rfl) (by simp)
  · exact Lays.skip (fun _ => (hg.expr 0).bind fun name => .skip fun _ =>
      (callArgs_gives hg).bind fun args => .close (by simp) (fun _ => rfl)
        (by simp [List.subset_append_of_subset_right])) c
  · refine Lays.token (fun name _ => .skip fun call => ?_) c
    split
    · exact (callArgs_gives hg).bind fun args =>
        .close (by simp) (fun _ => rfl) (by simp)
    · exact .close (by simp) (fun _ => rfl) (by simp)

theorem postfixStep_gives (start : Location) (e : Expr) :
    Lays start.offset [e.outline] (fun o => o.toList.flatMap fun e => [e.outline])
      (postfixStep g start e) := by
  refine .skip fun k => ?_
  split
  case h_1 | h_2 =>
    refine .skip fun nullsafe => .skip fun _ => (member_gives hg).bind fun m =>
      .skip fun call => ?_
    split
    · exact (callArgs_gives hg).bind fun args =>
        .close (by simp) (fun _ => rfl) (by simp)
    · exact .close (by simp) (fun _ => rfl) (by simp)
  case h_3 =>
    have hmember := (staticMember_gives hg (classOf e) start).refit fun _ => classOf_fits
    exact .skip fun _ => hmember.seq fun e' => .pure (by simp)
  case h_4 =>
    exact (callArgs_gives hg).bind fun args =>
      .close (by simp) (fun _ => rfl) (by simp)
  case h_5 =>
    exact .skip fun _ => .skip fun bare => .either (.empty (by simp)) (hg.expr 0).optional
      fun i => .skip fun _ => .close (by simp) (fun _ => rfl) (by simp [← List.map_eq_flatMap])
  case h_6 | h_7 =>
    exact .skip fun _ => .close (by simp) (fun _ => rfl) (by simp)
  case h_8 => exact .pure (by simp)

theorem postfixed_gives : Gives (fun e => [e.outline]) (postfixed g) :=
  (primary_gives hg).spanning fun e => .iterate (postfixStep_gives hg e.span.start) e

theorem yieldExpr_gives : Gives (fun e => [e.outline]) (yieldExpr g) := by
  refine .here fun start => .token fun _ _ => .skip fun fromAll => ?_
  split
  · exact .skip fun _ => (hg.expr _).bind fun e =>
      .close (by simp) (fun _ => rfl) (by simp)
  · refine .skip fun ends => ?_
    split
    · exact .close (by simp) (fun _ => rfl) (by simp)
    · refine (hg.expr _).bind fun first => .skip fun keyed => ?_
      split
      · exact (hg.expr _).bind fun e => .close (by simp) (fun _ => rfl) (by simp)
      · exact .close (by simp) (fun _ => rfl) (by simp)

theorem operand_gives : Gives (fun e => [e.outline]) (operand g) := by
  refine .here fun start => .skip fun type => ?_
  split
  · exact .skip fun _ => .skip fun _ => .skip fun _ => (hg.expr _).bind fun e =>
      .close (by simp) (fun _ => rfl) (by simp)
  · refine .skip fun k => ?_
    split
    · exact .skip fun _ => (hg.expr _).bind fun e =>
        .close (by simp) (fun _ => rfl) (by simp)
    · refine .skip fun k => ?_
      split
      · exact .skip fun _ => (hg.expr _).bind fun e =>
          .close (by simp) (fun _ => rfl) (by simp)
      · refine .skip fun k => ?_
        split
        · exact .skip fun _ => (hg.expr _).bind fun e =>
            .close (by simp) (fun _ => rfl) (by simp)
        · exact yieldExpr_gives hg _
        · exact postfixed_gives hg _

theorem instanceOfClass_gives : Gives ClassRef.parts (instanceOfClass g) := by
  refine fun start => .skip fun k => ?_
  split
  · exact className_gives.bind fun n => .pure (by simp)
  · exact staticRef_gives start
  · exact (hg.expr _).bind fun e => .pure (by simp)

theorem assignStep_gives (start : Location) (e : Expr) (op : AssignOp) :
    Lays start.offset [e.outline] (fun o => o.toList.flatMap fun e => [e.outline])
      (assignStep g start e op) := by
  unfold assignStep
  split
  · refine .skip fun _ => ?_
    extract_lets rest
    have hrest : ∀ op, Lays start.offset [e.outline]
        (fun o => o.toList.flatMap fun e => [e.outline]) (rest op) :=
      fun op => (hg.expr _).bind fun v => .close (by simp) (fun _ => rfl) (by simp)
    split
    · refine .skip fun byRef => ?_
      split
      · exact .skip hrest
      · exact .skip hrest
    · exact .skip hrest
  · exact .pure (by simp)

theorem ternaryStep_gives (start : Location) (least : Nat) (e : Expr) :
    Lays start.offset [e.outline] (fun o => o.toList.flatMap fun e => [e.outline])
      (ternaryStep g start least e) := by
  unfold ternaryStep
  split
  · exact .pure (by simp)
  · refine .skip fun _ => .skip fun short => ?_
    extract_lets rest
    have hrest : ∀ yes : Option Expr,
        Lays start.offset (yes.toList.flatMap (fun e => [e.outline]) ++ [e.outline])
          (fun o => o.toList.flatMap fun e => [e.outline]) (rest yes) :=
      fun yes => (hg.expr _).bind fun no =>
        .close (by simp) (fun _ => rfl) (by simp [← List.map_eq_flatMap])
    split
    · exact Gives.bind (.empty (by simp)) hrest
    · exact (hg.expr 0).bind fun yes => .skip fun _ => hrest (some yes)

theorem operatorStep_gives (start : Location) (least : Nat) (e : Expr) :
    Lays start.offset [e.outline] (fun o => o.toList.flatMap fun e => [e.outline])
      (operatorStep g start least e) := by
  refine .skip fun k => ?_
  split
  · exact .pure (by simp)
  · split
    · exact assignStep_gives hg start e _
    · split
      · exact ternaryStep_gives hg start least e
      · split
        · split
          · exact .pure (by simp)
          · exact .skip fun _ => (instanceOfClass_gives hg).bind fun r =>
              .close (by simp) (fun _ => rfl) (by simp)
        · split
          · split
            · exact .skip fun _ => (hg.expr _).bind fun rhs =>
                .close (by simp) (fun _ => rfl) (by simp)
            · exact .pure (by simp)
          · exact .pure (by simp)

theorem expression_gives (least : Nat) : Gives (fun e => [e.outline]) (expression g least) :=
  .here fun start => (operand_gives hg).bind fun e =>
    .iterate (operatorStep_gives hg start least) e

end

end ContractAudit.Grammar
