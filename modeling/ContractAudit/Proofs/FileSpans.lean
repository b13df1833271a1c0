import ContractAudit.Grammar.File
import ContractAudit.Proofs.ExpressionSpans
import ContractAudit.Proofs.Termination
import ContractAudit.Proofs.Yields

/-! The spans of statements and of whole files as they are read. Main statement: in the tree of any
source that parses no node ends before it starts, and each lies within the node above it. -/
namespace ContractAudit

namespace Grammar

open Source

instance : Consumes endStatement := by
  unfold endStatement
  infer_instance

section
variable {g : Nested} (hg : g.Gives)
include hg

theorem controlBody_gives : Gives (fun s => [s.outline]) (controlBody g) := by
  refine fun start => .skip fun colon => ?_
  split
  · exact .refuse _
  · exact hg.stmt start

theorem elseIf_gives : Gives (fun o => o.toList.flatMap ElseIf.parts) (elseIf g) := by
  refine fun _ => .skip fun found => ?_
  split
  · exact (parenExpr_gives hg).bind fun e => (controlBody_gives hg).bind fun s =>
      .pure (by simp)
  · exact .pure (by simp)

theorem ifStmt_gives (start : Location) :
    Lays start.offset [] (fun s => [s.outline]) (ifStmt g start) :=
  .skip fun _ => (parenExpr_gives hg).bind fun e => (controlBody_gives hg).bind fun y =>
    (elseIf_gives hg _).many.next fun es => .skip fun found =>
      .either (controlBody_gives hg).optional (.empty (by simp)) fun n =>
        .close (by simp) (fun _ => rfl) (by simp [← List.map_eq_flatMap])

theorem whileStmt_gives (start : Location) :
    Lays start.offset [] (fun s => [s.outline]) (whileStmt g start) :=
  .skip fun _ => (parenExpr_gives hg).bind fun e => (controlBody_gives hg).bind fun s =>
    .close (by simp) (fun _ => rfl) (by simp)

theorem doWhileStmt_gives (start : Location) :
    Lays start.offset [] (fun s => [s.outline]) (doWhileStmt g start) :=
  .skip fun _ => hg.stmt.bind fun s => .skip fun _ => (parenExpr_gives hg).bind fun e =>
    .skip fun _ => .close (by simp) (fun _ => rfl) (by simp)

theorem forStmt_gives (start : Location) :
    Lays start.offset [] (fun s => [s.outline]) (forStmt g start) :=
  .skip fun _ => .skip fun _ => (exprList_gives hg _).bind fun is => .skip fun _ =>
    (exprList_gives hg _).bind fun es => .skip fun _ => (exprList_gives hg _).bind fun ns =>
      .skip fun _ => (controlBody_gives hg).bind fun s =>
        .close (by simp) (fun _ => rfl) (by simp [List.subset_def]; grind)

theorem foreachStmt_gives (start : Location) :
    Lays start.offset [] (fun s => [s.outline]) (foreachStmt g start) := by
  refine .skip fun _ => .skip fun _ => (hg.expr 0).bind fun e => .skip fun _ =>
    (hg.expr 0).bind fun first => .skip fun keyed => ?_
  refine .either (hg.expr 0).optional (.empty (by simp)) fun second => .skip fun _ =>
    (controlBody_gives hg).bind fun s => ?_
  cases second with
  | none => exact .close (by simp) (fun _ => rfl) (by simp)
  | some value => exact .close (by simp) (fun _ => rfl) (by simp)

theorem switchCase_gives : Gives Case.parts (switchCase g) := by
  refine fun start => .skip fun labelled => ?_
  extract_lets rest
  have hrest : ∀ l : Option Expr, Lays start (l.toList.flatMap (fun e => [e.outline]) ++ [])
      Case.parts (rest l) := by
    refine fun l => .skip fun colon => .perhaps ?_
    refine (Lays.many (q := fun s : Stmt => [s.outline]) (.skip fun k => ?_)).next fun ss =>
      .pure (by simp [← List.map_eq_flatMap])
    split
    case h_1 | h_2 | h_3 | h_4 => exact .pure (by simp)
    case h_5 => exact hg.stmt.optional start
  split
  · exact (hg.expr 0).optional.bind hrest
  · exact .skip fun _ => Gives.bind (.empty (by simp)) hrest

theorem switchStmt_gives (start : Location) :
    Lays start.offset [] (fun s => [s.outline]) (switchStmt g start) := by
  refine .skip fun _ => (parenExpr_gives hg).bind fun e => .skip fun colon => .perhaps ?_
  refine .skip fun _ => (Lays.many (q := Case.parts) (.skip fun closed => ?_)).next fun ks =>
    .skip fun _ => .close (by simp) (fun _ => rfl) (by simp)
  split
  · exact .pure (by simp)
  · exact (switchCase_gives hg).bind fun k => .pure (by simp)

theorem catchClause_gives :
    Gives (fun o => o.toList.flatMap fun k => [k.outline]) (catchClause g) := by
  refine .here fun start => .skip fun found => ?_
  split
  · refine .skip fun _ => ((className_gives _).sepBy1 _).next fun types => .skip fun named => ?_
    extract_lets rest
    have hrest : ∀ var, Lays start.offset (types.flatMap (fun n => [n.outline]) ++ [])
        (fun o => o.toList.flatMap fun k => [k.outline]) (rest var) :=
      fun var => .skip fun _ => (block_gives hg).bind fun b =>
        .close (by simp) (fun _ => rfl) (by simp [← List.map_eq_flatMap])
    split
    · exact .skip hrest
    · exact .skip hrest
  · exact .pure (by simp)

theorem tryStmt_gives (start : Location) :
    Lays start.offset [] (fun s => [s.outline]) (tryStmt g start) := by
  refine .skip fun _ => (block_gives hg).bind fun b => (catchClause_gives hg _).many.next fun ks =>
    .skip fun found => ?_
  refine .either (block_gives hg).optional (.empty (by simp)) fun last => .perhaps ?_
  exact .close (by simp) (fun _ => rfl) (by simp [← List.map_eq_flatMap])

theorem returnStmt_gives (start : Location) :
    Lays start.offset [] (fun s => [s.outline]) (returnStmt g start) :=
  .skip fun _ => .skip fun bare => .either (.empty (by simp)) (hg.expr 0).optional fun v =>
    .token fun _ _ => .close (by simp) (fun _ => rfl) (by simp [← List.map_eq_flatMap])

theorem throwStmt_gives (start : Location) :
    Lays start.offset [] (fun s => [s.outline]) (throwStmt g start) :=
  .skip fun _ => (hg.expr 0).bind fun _ => .skip fun _ =>
    .close (by simp) (fun _ => rfl) (by simp)

theorem echoStmt_gives (start : Location) :
    Lays start.offset [] (fun s => [s.outline]) (echoStmt g start) :=
  .skip fun _ => ((hg.expr 0 _).sepBy1 _).next fun es => .token fun _ _ =>
    .close (by simp) (fun _ => rfl) (by simp [← List.map_eq_flatMap])

theorem unsetStmt_gives (start : Location) :
    Lays start.offset [] (fun s => [s.outline]) (unsetStmt g start) :=
  .skip fun _ => .skip fun _ => (exprList_gives hg _).bind fun es => .skip fun _ =>
    .token fun _ _ => .close (by simp) (fun _ => rfl) (by simp [← List.map_eq_flatMap])

omit hg in
theorem globalStmt_gives (start : Location) :
    Lays start.offset [] (fun s => [s.outline]) (globalStmt start) :=
  .skip fun _ => .skip fun _ => .token fun _ _ =>
    .close (by simp) (fun _ => rfl) (by simp)

theorem staticVar_gives : Gives StaticVar.parts (staticVar g) :=
  fun _ => .skip fun lexeme => .skip fun assigned =>
    .either (hg.expr 0).optional (.empty (by simp)) fun v => .pure (by simp [← List.map_eq_flatMap])

theorem staticStmt_gives (start : Location) :
    Lays start.offset [] (fun s => [s.outline]) (staticStmt g start) :=
  .skip fun _ => ((staticVar_gives hg _).sepBy1 _).next fun vs => .token fun _ _ =>
    .close (by simp) (fun _ => rfl) (by simp)

omit hg in
theorem jumpStmt_gives (jump : Jump) (start : Location) :
    Lays start.offset [] (fun s => [s.outline]) (jumpStmt jump start) :=
  .skip fun _ => .skip fun _ => .token fun _ _ =>
    .close (by simp) (fun _ => rfl) (by simp)

/- A block as a statement has the span of the block. -/
theorem blockStmt_gives : Gives (fun s => [s.outline]) (block g >>= fun b => pure (Stmt.block b)) :=
  fun _ => (block_gives hg).bind fun b => .pure_of fun _ h =>
    Fits.wrap (o := b.outline) (h.subset (by simp))

theorem declareStmt_gives (start : Location) :
    Lays start.offset [] (fun s => [s.outline]) (declareStmt g start) := by
  refine .skip fun _ => .skip fun _ => .skip fun _ => .skip fun braces => ?_
  split
  · exact blockStmt_gives hg _
  · exact .token fun _ _ => .close (by simp) (fun _ => rfl) (by simp)

theorem exprStmt_gives : Gives (fun s => [s.outline]) (exprStmt g) :=
  fun _ => (expression_gives hg 0).bind fun e => .skip fun _ => .pure_of fun _ h =>
    Fits.wrap (o := e.outline) (h.subset (by simp))

theorem statement_gives : Gives (fun s => [s.outline]) (statement g) := by
  refine .here fun start => .skip fun _ => .skip fun declares => ?_
  split
  · exact (typeDecl_gives hg none).bind fun t =>
      .close (by simp) (fun _ => rfl) (by simp)
  · refine .here fun c => .look fun k => ?_
    split
    case h_1 => exact Lays.fail _ c
    case h_2 => exact blockStmt_gives hg _ c
    case h_3 =>
      exact Lays.token (fun _ _ => .close (by simp) (fun _ => rfl) (by simp)) c
    case h_4 => exact .from_here (ifStmt_gives hg c.here)
    case h_5 => exact whileStmt_gives hg start c
    case h_6 => exact doWhileStmt_gives hg start c
    case h_7 => exact forStmt_gives hg start c
    case h_8 => exact foreachStmt_gives hg start c
    case h_9 => exact .from_here (switchStmt_gives hg c.here)
    case h_10 => exact .from_here (tryStmt_gives hg c.here)
    case h_11 => exact returnStmt_gives hg start c
    case h_12 => exact throwStmt_gives hg start c
    case h_13 => exact echoStmt_gives hg start c
    case h_14 => exact unsetStmt_gives hg start c
    case h_15 => exact globalStmt_gives start c
    case h_16 =>
      refine .look fun var => ?_
      split
      · exact staticStmt_gives hg start c
      · exact exprStmt_gives hg _ c
    case h_17 | h_18 => exact jumpStmt_gives _ start c
    case h_19 =>
      refine .look fun named => ?_
      have := functionDecl_consumes hg
      split
      · exact Lays.token (fun _ _ => .close (by simp) (fun _ => rfl) (by simp)) c
      · exact exprStmt_gives hg _ c
    case h_20 => exact declareStmt_gives hg start c
    case h_21 =>
      refine .look fun colon => ?_
      split
      · exact Lays.skip (fun _ => .token fun _ _ =>
          .close (by simp) (fun _ => rfl) (by simp)) c
      · exact exprStmt_gives hg _ c
    case h_22 => exact exprStmt_gives hg _ c

theorem topLevelItem_gives (start : Nat) (b : NamespaceBlock) :
    Lays start b.parts NamespaceBlock.parts (topLevelItem g b) := by
  refine .skip fun before => .skip fun _ => .skip fun declares => ?_
  split
  · exact .skip fun next => (typeDecl_gives hg _).bind fun t =>
      .pure (by simp [NamespaceBlock.parts])
  · refine .skip fun k => ?_
    split
    · exact useDecl_gives.bind fun us => .pure (by simp [NamespaceBlock.parts])
    · exact .skip fun _ => .pure (by simp)
    · exact (statement_gives hg).bind fun _ => .pure (by simp)

omit hg in
theorem topLevelItem_keeps (b : NamespaceBlock) :
    Yields (fun b' => b'.name = b.name ∧ b'.span = b.span) (topLevelItem g b) := by
  refine .skip fun before => .skip fun _ => .skip fun declares => ?_
  split
  · exact .skip fun next => .skip fun t => .pure ⟨rfl, rfl⟩
  · refine .skip fun k => ?_
    split
    · exact .skip fun us => .pure ⟨rfl, rfl⟩
    · exact .skip fun _ => .pure ⟨rfl, rfl⟩
    · exact .skip fun _ => .pure ⟨rfl, rfl⟩

theorem bracedLoop_gives (start : Nat) (b : NamespaceBlock) :
    Lays start b.parts NamespaceBlock.parts (iterate (bracedStep g) b) := by
  refine Lays.iterate (q := NamespaceBlock.parts) (fun b => .skip fun closed => ?_) b
  split
  · exact .pure (by simp)
  · refine .skip fun ended => ?_
    split
    · exact .fail _
    · exact (topLevelItem_gives hg start b).seq fun b' => .pure (by simp)

theorem bracedItems_gives (start : Nat) (b : NamespaceBlock) :
    Lays start b.parts NamespaceBlock.parts (bracedItems g b) :=
  (bracedLoop_gives hg start b).seq fun b' => .skip fun _ => .pure (by simp)

omit hg in
theorem bracedItems_keeps (b : NamespaceBlock) :
    Yields (fun b' => b'.name = b.name ∧ b'.span = b.span) (bracedItems g b) := by
  refine (Yields.iterate (P := fun b' => b'.name = b.name ∧ b'.span = b.span) ⟨rfl, rfl⟩
    fun b' hb' => .skip fun closed => ?_).bind fun b' hb' => .skip fun _ => .pure hb'
  split
  · exact .pure (by simp)
  · refine .skip fun ended => ?_
    split
    · exact .fail _
    · exact (topLevelItem_keeps b').bind fun b'' h =>
        .pure (by simpa using ⟨h.1.trans hb'.1, h.2.trans hb'.2⟩)

end

/-- The blocks of a file so far: those that are complete lie from `start` to the end of the last
token that was read, and the items of the one that is being read from its own start on. A block is
kept for its name only once its name was read. -/
structure Blocks.Fits (start : Nat) (c : Cursor) (bs : Blocks) : Prop where
  done : Grammar.Fits start c.last.offset (bs.done.map NamespaceBlock.outline)
  begins : start ≤ bs.current.span.start.offset
  ahead : bs.current.span.start.offset ≤ c.here.offset
  items : Grammar.Fits bs.current.span.start.offset c.last.offset bs.current.parts
  named : bs.current.name.isSome → bs.current.span.start.offset ≤ c.last.offset

section
variable {start : Nat} {c d : Cursor}

theorem Blocks.Fits.goes {bs : Blocks} (h : bs.Fits start c) (hd : Goes c d) : bs.Fits start d where
  done := h.done.mono le_rfl hd.last
  begins := h.begins
  ahead := h.ahead.trans hd.here
  items := h.items.mono le_rfl hd.last
  named hname := (h.named hname).trans hd.last

theorem emptyBlock_fits {done : List NamespaceBlock} {name : Option String} {l : Location}
    (hdone : Fits start c.last.offset (done.map NamespaceBlock.outline)) (hl : start ≤ l.offset)
    (hhere : l.offset ≤ c.here.offset) (hname : name.isSome → l.offset ≤ c.last.offset) :
    Blocks.Fits start c ⟨done, emptyBlock name l⟩ :=
  ⟨hdone, hl, hhere, .nil, hname⟩

/- More items in the block that is being read. -/
theorem Blocks.Fits.replace {bs : Blocks} (h : bs.Fits start c) {b : NamespaceBlock}
    (hb : b.name = bs.current.name ∧ b.span = bs.current.span)
    (hitems : Grammar.Fits bs.current.span.start.offset c.last.offset b.parts) :
    Blocks.Fits start c ⟨bs.done, b⟩ where
  done := h.done
  begins := by simpa only [hb.2] using h.begins
  ahead := by simpa only [hb.2] using h.ahead
  items := by simpa only [hb.2] using hitems
  named := by simpa only [hb.1, hb.2] using h.named

theorem closeBlock_fits {bs : Blocks} (h : bs.Fits start c) (keepEmpty : Bool)
    (hkeep : keepEmpty = true → bs.current.span.start.offset ≤ c.last.offset) :
    Fits start c.last.offset
      ((closeBlock bs.done bs.current c.last keepEmpty).map NamespaceBlock.outline) := by
  unfold closeBlock
  split
  · next hkept =>
    have hordered : bs.current.span.start.offset ≤ c.last.offset := by
      by_cases hparts : bs.current.parts = []
      · simp only [NamespaceBlock.parts, List.append_eq_nil_iff, List.map_eq_nil_iff] at hparts
        simp only [hparts, List.isEmpty_nil, Bool.not_true, Bool.or_false, Bool.or_eq_true] at hkept
        exact hkept.elim hkeep h.named
      · exact h.items.le hparts
    have hblock : Fits start c.last.offset
        [NamespaceBlock.outline { bs.current with span := ⟨bs.current.span.start, c.last⟩ }] :=
      Fits.singleton_node (s := ⟨bs.current.span.start, c.last⟩) h.items hordered h.begins le_rfl
    exact hblock.append h.done
  · exact h.done

end

section
variable {g : Nested} (hg : g.Gives) {start : Nat} {c d : Cursor} {bs bs' : Blocks}
include hg

theorem namespaceDecl_fits (hc : c.Laid) (hstart : start ≤ c.here.offset) (hbs : bs.Fits start c)
    (hrun : namespaceDecl g bs c = .ok (bs', d)) : Goes c d ∧ bs'.Fits start d := by
  obtain ⟨_, _, hl, hrun⟩ := run_bind hrun
  cases hl
  obtain ⟨_, c₁, hadvance, hrun⟩ := run_bind hrun
  obtain ⟨hgoes₁, hread⟩ := Consumes.consumes hc hadvance
  obtain ⟨named, c₂, hnamed, hrun⟩ := run_bind hrun
  have hgoes₂ := Passes.goes hgoes₁.laid hnamed
  extract_lets rest at hrun
  -- the block before ends with the name of the new one
  have hrest : ∀ name c₃, Goes c₂ c₃ → rest name c₃ = .ok (bs', d) →
      Goes c d ∧ bs'.Fits start d := by
    intro name c₃ hgoes₃ hrun
    have hc₃ := (hgoes₁.trans hgoes₂).trans hgoes₃
    have hread₃ := hread.trans (hgoes₂.trans hgoes₃).last
    have hdone := closeBlock_fits (hbs.goes hc₃) false (by simp)
    obtain ⟨_, _, hend, hrun⟩ := run_bind hrun
    cases hend
    obtain ⟨braces, c₄, hbraces, hrun⟩ := run_bind hrun
    have hgoes₄ := Passes.goes hc₃.laid hbraces
    have hc₄ := hc₃.trans hgoes₄
    have hread₄ := hread₃.trans hgoes₄.last
    split at hrun
    · obtain ⟨b, c₅, hb, hrun⟩ := run_bind hrun
      cases hrun
      have hkeeps := bracedItems_keeps _ _ _ _ hb
      obtain ⟨hgoes₅, hitems⟩ :=
        bracedItems_gives hg c.here.offset _ c₄ hc₄.laid hc₄.here .nil _ _ hb
      have hc₅ := hc₄.trans hgoes₅
      have hread₅ := hread₄.trans hgoes₅.last
      have hopened := emptyBlock_fits (hdone.mono le_rfl (hgoes₄.trans hgoes₅).last) hstart hc₅.here
        fun _ : name.isSome => hread₅
      have hstarts : b.span.start = c.here := congrArg Span.start hkeeps.2
      have hclosed := closeBlock_fits (hopened.replace hkeeps hitems) true
        fun _ => by simpa only [hstarts] using hread₅
      exact ⟨hc₅, emptyBlock_fits hclosed (hstart.trans hc₅.here) le_rfl (by simp)⟩
    · obtain ⟨_, c₅, hsemicolon, hrun⟩ := run_bind hrun
      cases hrun
      have hgoes₅ := Passes.goes hc₄.laid hsemicolon
      have hc₅ := hc₄.trans hgoes₅
      exact ⟨hc₅, emptyBlock_fits (hdone.mono le_rfl (hgoes₄.trans hgoes₅).last) hstart hc₅.here
        fun _ => hread₄.trans hgoes₅.last⟩
  split at hrun
  · obtain ⟨name, c₃, hname, hrun⟩ := run_bind hrun
    exact hrest name c₃ (Passes.goes hgoes₂.laid hname) hrun
  · obtain ⟨name, c₃, hname, hrun⟩ := run_bind hrun
    exact hrest name c₃ (Passes.goes hgoes₂.laid hname) hrun

theorem fileStep_fits {o : Option Blocks} (hc : c.Laid) (hstart : start ≤ c.here.offset)
    (hbs : bs.Fits start c) (hrun : fileStep g bs c = .ok (o, d)) :
    Goes c d ∧ ∀ bs' ∈ o, bs'.Fits start d := by
  obtain ⟨ended, c₁, hended, hrun⟩ := run_bind hrun
  cases hended
  split at hrun
  · cases hrun
    exact ⟨.refl hc, by simp⟩
  · obtain ⟨declares, c₁, hdeclares, hrun⟩ := run_bind hrun
    cases hdeclares
    split at hrun
    · obtain ⟨bs', c₁, hdecl, hrun⟩ := run_bind hrun
      cases hrun
      obtain ⟨hd, hbs'⟩ := namespaceDecl_fits hg hc hstart hbs hdecl
      exact ⟨hd, by simpa using hbs'⟩
    · obtain ⟨b, c₁, hitem, hrun⟩ := run_bind hrun
      cases hrun
      obtain ⟨hd, hitems⟩ := topLevelItem_gives hg _ _ c hc hbs.ahead hbs.items _ _ hitem
      have hnext := (hbs.goes hd).replace (topLevelItem_keeps _ _ _ _ hitem) hitems
      exact ⟨hd, by simpa using hnext⟩

omit hg in
theorem fileStep_none (hrun : fileStep g bs c = .ok (none, d)) : c.rest = [] ∧ d = c := by
  obtain ⟨ended, _, hended, hrun⟩ := run_bind hrun
  cases hended
  split at hrun
  · next hempty =>
    cases hrun
    exact ⟨List.isEmpty_iff.mp hempty, rfl⟩
  · obtain ⟨declares, _, hdeclares, hrun⟩ := run_bind hrun
    cases hdeclares
    split at hrun <;> obtain ⟨_, _, _, hrun⟩ := run_bind hrun <;> cases hrun

theorem file_gives : Gives (fun p => [p.outline]) (file g) := by
  refine .here fun l => ?_
  intro c hc hl _ p d hrun
  obtain ⟨bs, _, hsteps, hlast⟩ := run_bind hrun
  cases hlast
  have hempty : Blocks.Fits l.offset c ⟨[], emptyBlock none l⟩ :=
    emptyBlock_fits .nil le_rfl hl (by simp)
  obtain ⟨c₂, ⟨hgoes, hbs⟩, hlast⟩ := iterate_induction
    (I := fun c' bs => Goes c c' ∧ bs.Fits l.offset c')
    (fun hinv hstep => by
      obtain ⟨hd, hbs'⟩ := fileStep_fits hg hinv.1.laid (hl.trans hinv.1.here) hinv.2 hstep
      exact ⟨hinv.1.trans hd, hbs' _ rfl⟩) ⟨.refl hc, hempty⟩ hsteps
  obtain ⟨hrest, rfl⟩ := fileStep_none hlast
  -- with nothing left, the next place is the end
  have hend : d.here = d.last := by simp [Cursor.here, hrest]
  have hblocks := closeBlock_fits hbs bs.done.isEmpty fun _ => hend ▸ hbs.ahead
  refine ⟨hgoes, Fits.singleton_node (s := ⟨l, d.last⟩) ?_ ?_ le_rfl le_rfl⟩
  · exact hblocks.subset (by simp)
  · exact hend ▸ hl.trans hgoes.here

end

theorem levels_gives (n : Nat) : (levels n).Gives := by
  induction n with
  | zero => exact ⟨fun _ _ => .refuse _, fun _ => .refuse _, fun _ => .refuse _⟩
  | succ n ih => exact ⟨expression_gives ih, primary_gives ih, statement_gives ih⟩

end Grammar

/-- In the tree of a source that parses, no span ends before it starts, and the span of each node
lies within the span of the node above it. -/
theorem Program.outline_wellNested {source : String} {p : Program}
    (h : Program.ofSource source = .ok p) : p.outline.WellNested := by
  unfold Program.ofSource at h
  split at h
  · next ts hts =>
    unfold Program.ofTokens Grammar.Parser.run at h
    split at h
    · next c hrun =>
      cases h
      have hlaid := Grammar.ofTokens_laid (Grammar.inOrder_ofSource hts)
      have hfile := Grammar.file_gives (Grammar.levels_gives (ts.length + 1))
      exact ((hfile 0 _ hlaid (Nat.zero_le _) .nil _ _ hrun).2 _ List.mem_cons_self).1
    · cases h
  · cases h

/-- A method with an attribute before it, a chain of accesses on an operand in parentheses, a class
without a name, and a close tag that ends a statement. -/
def Sample.nested : String :=
  "<?php namespace N; class K { #[At] function f($c) {
    ($c)->go()::$x[2]; return new class {} ?> <?php } }"

theorem Program.outline_wellNested_sample :
    ∃ p, Program.ofSource Sample.nested = .ok p ∧ p.outline.WellNested ∧
      p.span.start.offset = 6 ∧ p.blocks.length = 1 := by
  have hread : (Program.ofSource Sample.nested).toOption.map
      (fun p => (p.span.start.offset, p.blocks.length)) = some (6, 1) := by decide +kernel
  cases hp : Program.ofSource Sample.nested with
  | error e => simp [hp, Except.toOption] at hread
  | ok p =>
    simp only [hp, Except.toOption, Option.map_some, Option.some.injEq, Prod.mk.injEq] at hread
    exact ⟨p, rfl, Program.outline_wellNested hp, hread⟩

end ContractAudit
