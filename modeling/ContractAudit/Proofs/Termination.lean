import ContractAudit.Grammar.File
import ContractAudit.Proofs.Reading

/-! Reading statements and files. Main statement: every parser of the grammar that succeeds has read
a token, nested parts are read further on only, and no list of tokens uses up the allowance for
nesting or for the rounds of a loop. -/
namespace ContractAudit

namespace Grammar

open Source

section
variable {n : Nat} {g : Nested} (hg : g.Reads n) {c : Cursor}
include hg

omit hg in
instance : Onward endStatement := ⟨fun _ => .step fun _ => .pure⟩

omit hg in
theorem refuse_reads {α : Type} {cause : ParseError.Cause} (h : cause ≠ .nesting) :
    Reads n (refuse cause : Parser α) := fun _ _ => h

theorem controlBody_reads : Reads n (controlBody g) := by
  refine .step fun colon => ?_
  split
  · exact refuse_reads (by simp)
  · exact hg.stmt

theorem elseIf_rounds : Rounds (n + 1) (elseIf g) :=
  .accept ((parenExpr_reads hg).later.moves.bind fun _ => (controlBody_reads hg).moves.bind
    fun _ => .pure) .stop le_rfl

theorem switchCase_reads : Reads (n + 1) (switchCase g) := by
  refine .accept ?_ ?_
  -- with a label or without, the same rest follows
  all_goals
    extract_lets last
    have hlast : ∀ label, Moves n (last label) := by
      refine fun label => .step fun colon => ?_
      extract_lets rest
      have hrest : Moves n (rest ()) := by
        refine Moves.bind (Rounds.many (.look fun k => ?_)) fun _ => .pure
        split
        case h_5 => exact (hg.stmt.bind fun _ => .pure).round
        all_goals exact .stop
      split
      · exact .step fun _ => hrest
      · exact hrest
  · exact (hg.expr 0).moves.map.bind hlast
  · exact (expect_reads _ _).first fun _ => Moves.pure.bind hlast

theorem catchClause_rounds : Rounds (n + 1) (catchClause g) := by
  refine .look fun start => .accept ?_ .stop le_rfl
  exact .step fun _ => (className_reads.sepBy1 _).moves.bind fun types => .step fun var =>
    .optional (Onward.moves n) fun _ => .step fun _ => (block_reads hg).later.moves.bind fun _ =>
      .step fun _ => .pure

theorem staticVar_reads : Reads n (staticVar g) :=
  (expect_reads _ _).bind fun _ => .step fun _ => .optional (hg.expr 0).moves fun _ => .pure

theorem exprStmt_reads : Reads (n + 1) (exprStmt g) :=
  (expression_reads hg 0).first fun _ => .step fun _ => .pure

section
variable (hne : c.rest ≠ []) (hc : c.rest.length < n + 1) (start : Location)
include hne hc

theorem ifStmt_reads : ReadsAt (ifStmt g start) c :=
  (advance_reads hne).first hc fun _ => (parenExpr_reads hg).later.moves.bind fun _ =>
    (controlBody_reads hg).moves.bind fun _ => ((elseIf_rounds hg).many.mono n.le_succ).bind
      fun _ => .step fun _ => .optional (controlBody_reads hg).moves fun _ => .step fun _ => .pure

theorem whileStmt_reads : ReadsAt (whileStmt g start) c :=
  (advance_reads hne).first hc fun _ => (parenExpr_reads hg).later.moves.bind fun _ =>
    (controlBody_reads hg).moves.bind fun _ => .step fun _ => .pure

theorem doWhileStmt_reads : ReadsAt (doWhileStmt g start) c :=
  (advance_reads hne).first hc fun _ => hg.stmt.moves.bind fun _ => .step fun _ =>
    (parenExpr_reads hg).later.moves.bind fun _ => .step fun _ => .step fun _ => .pure

theorem forStmt_reads : ReadsAt (forStmt g start) c :=
  (advance_reads hne).first hc fun _ => .step fun _ => (exprList_moves hg _).bind fun _ =>
    .step fun _ => (exprList_moves hg _).bind fun _ => .step fun _ =>
      (exprList_moves hg _).bind fun _ => .step fun _ => (controlBody_reads hg).moves.bind fun _ =>
        .step fun _ => .pure

theorem foreachStmt_reads : ReadsAt (foreachStmt g start) c := by
  refine (advance_reads hne).first hc fun _ => .step fun _ => (hg.expr 0).moves.bind fun subject =>
    .step fun _ => (hg.expr 0).moves.bind fun first => .step fun keyed =>
      .optional (hg.expr 0).moves fun second => .step fun _ => (controlBody_reads hg).moves.bind
        fun body => .step fun span => ?_
  split <;> exact .pure

theorem switchStmt_reads : ReadsAt (switchStmt g start) c := by
  refine (advance_reads hne).first hc fun _ => (parenExpr_reads hg).later.moves.bind fun subject =>
    .step fun colon => ?_
  extract_lets rest
  have hrest : Moves n (rest ()) := by
    refine .step fun _ => Moves.bind (Rounds.many (.look fun closed => ?_)) fun _ => .step fun _ =>
      .step fun _ => .pure
    split
    · exact .stop
    · exact ((switchCase_reads hg).later.bind fun _ => .pure).round
  split
  · exact (refuse_reads (by simp)).moves.bind fun _ => hrest
  · exact hrest

theorem tryStmt_reads : ReadsAt (tryStmt g start) c := by
  refine (advance_reads hne).first hc fun _ => (block_reads hg).later.moves.bind fun body =>
    ((catchClause_rounds hg).many.mono n.le_succ).bind fun catches => .step fun more =>
      .optional (block_reads hg).later.moves fun last => ?_
  dsimp only
  split
  · exact .step fun _ => .step fun _ => .pure
  · exact .step fun _ => .pure

theorem returnStmt_reads : ReadsAt (returnStmt g start) c := by
  refine (advance_reads hne).first hc fun _ => .step fun bare => ?_
  extract_lets last
  have hlast : ∀ value, Moves n (last value) := fun _ => .step fun _ => .step fun _ => .pure
  split
  · exact Moves.pure.bind hlast
  · exact (hg.expr 0).moves.map.bind hlast

theorem throwStmt_reads : ReadsAt (throwStmt g start) c :=
  (advance_reads hne).first hc fun _ => (hg.expr 0).moves.bind fun _ => .step fun _ =>
    .step fun _ => .pure

theorem echoStmt_reads : ReadsAt (echoStmt g start) c :=
  (advance_reads hne).first hc fun _ => ((hg.expr 0).sepBy1 _).moves.bind fun _ => .step fun _ =>
    .step fun _ => .pure

theorem unsetStmt_reads : ReadsAt (unsetStmt g start) c :=
  (advance_reads hne).first hc fun _ => .step fun _ => (exprList_moves hg _).bind fun _ =>
    .step fun _ => .step fun _ => .step fun _ => .pure

omit hg in
theorem globalStmt_reads : ReadsAt (globalStmt start) c :=
  (advance_reads hne).first hc fun _ => ((expect_reads _ _).map.sepBy1 _).moves.bind fun _ =>
    .step fun _ => .step fun _ => .pure

theorem staticStmt_reads : ReadsAt (staticStmt g start) c :=
  (advance_reads hne).first hc fun _ => ((staticVar_reads hg).sepBy1 _).moves.bind fun _ =>
    .step fun _ => .step fun _ => .pure

omit hg in
theorem jumpStmt_reads (jump : Jump) : ReadsAt (jumpStmt jump start) c :=
  (advance_reads hne).first hc fun _ => .step fun _ => .step fun _ => .step fun _ => .pure

theorem declareStmt_reads : ReadsAt (declareStmt g start) c := by
  refine (advance_reads hne).first hc fun _ => .step fun _ => .step fun _ => .step fun braces => ?_
  split
  · exact (block_reads hg).later.moves.bind fun _ => .pure
  · exact .step fun _ => .step fun _ => .pure

end

omit hg in
instance : Looks atFunctionDecl := inferInstanceAs (Looks (kindAt? 1 >>= _))

theorem statement_reads : Reads (n + 1) (statement g) := by
  refine .step fun start => .step fun _ => .step fun declares => ?_
  split
  · exact (typeDecl_reads hg _).first fun _ => .step fun _ => .pure
  · intro c hc
    refine .look fun innerStart _ => .look fun k hk => ?_
    cases k with
    | none => exact .fail _
    | some k =>
      -- there is a token ahead, and each form begins by reading it
      have hne := rest_ne_nil_of_kind? hk
      have hexpr := exprStmt_reads hg c hc
      split
      case h_1 => contradiction
      case h_2 => exact ((block_reads hg).first fun _ => .pure) c hc
      case h_3 => exact (advance_reads hne).first hc fun _ => .step fun _ => .pure
      case h_4 => exact ifStmt_reads hg hne hc _
      case h_5 => exact whileStmt_reads hg hne hc _
      case h_6 => exact doWhileStmt_reads hg hne hc _
      case h_7 => exact forStmt_reads hg hne hc _
      case h_8 => exact foreachStmt_reads hg hne hc _
      case h_9 => exact switchStmt_reads hg hne hc _
      case h_10 => exact tryStmt_reads hg hne hc _
      case h_11 => exact returnStmt_reads hg hne hc _
      case h_12 => exact throwStmt_reads hg hne hc _
      case h_13 => exact echoStmt_reads hg hne hc _
      case h_14 => exact unsetStmt_reads hg hne hc _
      case h_15 => exact globalStmt_reads hne hc _
      case h_16 =>
        refine .look fun var _ => ?_
        split
        · exact staticStmt_reads hg hne hc _
        · exact hexpr
      case h_17 | h_18 => exact jumpStmt_reads hne hc _ _
      case h_19 =>
        refine .look fun named _ => ?_
        split
        · exact ((functionDecl_reads hg).first fun _ => .step fun _ => .pure) c hc
        · exact hexpr
      case h_20 => exact declareStmt_reads hg hne hc _
      case h_21 =>
        refine .look fun colon _ => ?_
        split
        · exact (advance_reads hne).first hc fun _ => .step fun _ => .step fun _ => .pure
        · exact hexpr
      case h_22 => exact hexpr

theorem topLevelItem_reads (b : NamespaceBlock) : Reads (n + 1) (topLevelItem g b) := by
  refine .step fun before => .step fun _ => .step fun declares => ?_
  split
  · exact .step fun _ => (typeDecl_reads hg _).first fun _ => .pure
  · refine .step fun k => ?_
    split
    · exact useDecl_reads.bind fun _ => .pure
    · exact skipStatement_reads.bind fun _ => .pure
    · exact (statement_reads hg).first fun _ => .pure

theorem bracedStep_rounds (b : NamespaceBlock) : Rounds n (bracedStep g b) := by
  refine .look fun closed => ?_
  split
  · exact .stop
  · refine .look fun ended => ?_
    split
    · exact (Reads.fail _).round
    · exact ((topLevelItem_reads hg _).later.bind fun _ => .pure).round

theorem bracedItems_moves (b : NamespaceBlock) : Moves n (bracedItems g b) :=
  (Rounds.iterate (bracedStep_rounds hg) b).bind fun _ => .step fun _ => .pure

omit hg in
instance : Looks prevEnd := inferInstanceAs (Looks (get >>= _))

theorem namespaceDecl_reads (hne : c.rest ≠ []) (hc : c.rest.length < n + 1) (bs : Blocks) :
    ReadsAt (namespaceDecl g bs) c := by
  refine .look fun start _ => (advance_reads hne).first hc fun _ => .step fun named =>
    .optional (Onward.moves n) fun name => .step fun finish => .step fun braces => ?_
  split
  · exact (bracedItems_moves hg _).bind fun _ => .step fun _ => .step fun _ => .pure
  · exact .step fun _ => .pure

theorem fileStep_rounds (bs : Blocks) : Rounds (n + 1) (fileStep g bs) := by
  intro c hc
  refine .look fun ended _ => ?_
  split
  · exact .pure ⟨le_rfl, by simp⟩
  · refine .look fun declares hdeclares => ?_
    split
    · next h =>
      subst h
      exact ((namespaceDecl_reads hg (rest_ne_nil_of_check hdeclares) hc bs).first hc
        fun _ => .pure).round
    · exact ((topLevelItem_reads hg _).first fun _ => .pure).round c hc

theorem file_moves : Moves (n + 1) (file g) :=
  .step fun _ => (Rounds.iterate (fileStep_rounds hg) _).bind fun _ => .step fun _ =>
    .step fun _ => .pure

end

/-- With more levels than there are tokens left, every parser reads. -/
theorem levels_reads (n : Nat) : (levels n).Reads n := by
  induction n with
  | zero => exact ⟨fun _ _ hc => absurd hc (Nat.not_lt_zero _),
      fun _ hc => absurd hc (Nat.not_lt_zero _), fun _ hc => absurd hc (Nat.not_lt_zero _)⟩
  | succ n ih => exact ⟨expression_reads ih, primary_reads ih, statement_reads ih⟩

theorem Ends.run_error {α : Type} {p : Parser α} {ts : List Token} {Q : α → Cursor → Prop}
    {e : ParseError} (h : Ends p (Cursor.ofTokens ts) Q) (hrun : p.run ts = .error e) :
    e.cause ≠ .nesting := by
  unfold Parser.run at hrun
  unfold Ends at h
  split at hrun
  · cases hrun
  · next heq =>
    rw [heq] at h
    cases hrun
    exact h

/-- One level of the grammar reads wherever the levels below it read further on, so with a level for
each token every level does, and neither a file nor an expression runs out of levels or rounds,
which is what the cause `nesting` tells. -/
theorem parsers_advance :
    (∀ n (g : Nested), g.Reads n →
      (∀ least, Reads (n + 1) (expression g least)) ∧ Reads (n + 1) (primary g) ∧
      Reads (n + 1) (statement g) ∧ (∀ doc, Reads (n + 1) (typeDecl g doc)) ∧
      Reads (n + 1) typeHint ∧ (∀ b, Reads (n + 1) (topLevelItem g b)) ∧
      (∀ start least e, Rounds (n + 1) (operatorStep g start least e)) ∧
      (∀ start e, Rounds (n + 1) (postfixStep g start e)) ∧
      (∀ bs, Rounds (n + 1) (fileStep g bs)) ∧ Moves (n + 1) (file g)) ∧
    (∀ n, (levels n).Reads n) ∧
    (∀ ts e, Program.ofTokens ts = .error e → e.cause ≠ .nesting) ∧
    (∀ ts e, Expr.ofTokens ts = .error e → e.cause ≠ .nesting) := by
  refine ⟨fun n g hg => ⟨expression_reads hg, primary_reads hg, statement_reads hg,
    typeDecl_reads hg, typeHint_reads, topLevelItem_reads hg, operatorStep_rounds hg,
    postfixStep_rounds hg, fileStep_rounds hg, file_moves hg⟩, levels_reads, ?_, ?_⟩
  · intro ts e h
    have hfile := file_moves (levels_reads (ts.length + 1))
    exact (hfile (Cursor.ofTokens ts) (Nat.lt_add_right 1 ts.length.lt_succ_self)).run_error h
  · intro ts e h
    have hexpr := expression_reads (levels_reads ts.length) 0
    exact (hexpr (Cursor.ofTokens ts) ts.length.lt_succ_self).run_error h

/-- Statements inside one another, of which the innermost breaks off. -/
def Sample.brokenOff : List Token :=
  ((Token.ofSource "<?php if ($a) while ($b) foreach ($xs as [").toOption).getD []

theorem parsers_advance_brokenOff :
    Sample.brokenOff.length = 13 ∧ Reads 14 (statement (levels 13)) ∧
      (∃ e, Program.ofTokens Sample.brokenOff = .error e ∧ e.cause ≠ .nesting) ∧
      ∃ e, Expr.ofTokens Sample.brokenOff = .error e ∧ e.cause ≠ .nesting := by
  obtain ⟨hlevel, hlevels, hprogram, hexpr⟩ := parsers_advance
  refine ⟨by decide +kernel, (hlevel 13 (levels 13) (hlevels 13)).2.2.1, ?_, ?_⟩
  · have hfails : (Program.ofTokens Sample.brokenOff).isOk = false := by decide +kernel
    cases h : Program.ofTokens Sample.brokenOff with
    | ok _ => rw [h] at hfails; cases hfails
    | error e => exact ⟨e, rfl, hprogram _ e h⟩
  · have hfails : (Expr.ofTokens Sample.brokenOff).isOk = false := by decide +kernel
    cases h : Expr.ofTokens Sample.brokenOff with
    | ok _ => rw [h] at hfails; cases hfails
    | error e => exact ⟨e, rfl, hexpr _ e h⟩

end Grammar

end ContractAudit
