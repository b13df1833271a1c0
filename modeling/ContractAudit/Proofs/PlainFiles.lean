import ContractAudit.Grammar.File
import ContractAudit.Proofs.PlainExpressions

/-! Files as they are read. Main statement: no name in them is resolved, and every type is declared
under its short name. -/
namespace ContractAudit

@[simp]
theorem plain_stmtsOption {s : Option Stmt} :
    Plain (Stmt.namesOption s) ↔ ∀ s' ∈ s, Plain s'.names := by
  cases s <;> simp [Stmt.namesOption]

@[simp]
theorem plain_stmts {ss : List Stmt} : Plain (Stmt.namesList ss) ↔ ∀ s ∈ ss, Plain s.names :=
  plain_list rfl fun _ _ => rfl

@[simp]
theorem plain_elseIfs {es : List ElseIf} :
    Plain (Stmt.namesElseIfs es) ↔ ∀ e ∈ es, Plain e.names :=
  plain_list rfl fun _ _ => rfl

@[simp]
theorem plain_cases {ks : List Case} : Plain (Stmt.namesCases ks) ↔ ∀ k ∈ ks, Plain k.names :=
  plain_list rfl fun _ _ => rfl

@[simp]
theorem plain_catches {ks : List Catch} :
    Plain (Stmt.namesCatches ks) ↔ ∀ k ∈ ks, Plain k.names :=
  plain_list rfl fun _ _ => rfl

@[simp]
theorem plain_blocksOption {b : Option Block} :
    Plain (Block.namesOption b) ↔ ∀ b' ∈ b, Plain b'.names := by
  cases b <;> simp [Block.namesOption]

@[simp]
theorem plain_hintsOption {h : Option TypeHint} :
    Plain (TypeHint.namesOption h) ↔
      ∀ h' ∈ h, ∀ n ∈ Signature.hintNames h', n.resolved = none := by
  cases h <;> simp [TypeHint.namesOption]

/-- A type as it is read: no name is resolved, and it is declared under its short name. -/
structure TypeDecl.AsWritten (t : TypeDecl) : Prop where
  plain : Plain t.names
  fullName : t.fullName = t.name

def NamespaceBlock.AsWritten (b : NamespaceBlock) : Prop := ∀ t ∈ b.types, t.AsWritten

structure Grammar.Blocks.AsWritten (bs : Grammar.Blocks) : Prop where
  done : ∀ b ∈ bs.done, b.AsWritten
  current : bs.current.AsWritten

structure Program.AsWritten (p : Program) : Prop where
  blocks : ∀ b ∈ p.blocks, b.AsWritten
  namesResolved : p.namesResolved = false

namespace Grammar

open Source Signature

theorem hintNamesList_plain {hs : List TypeHint}
    (h : ∀ t ∈ hs, ∀ n ∈ hintNames t, n.resolved = none) :
    ∀ n ∈ hintNamesList hs, n.resolved = none := by
  induction hs with
  | nil => simp [hintNamesList]
  | cons t hs ih =>
    obtain ⟨ht, hrest⟩ := List.forall_mem_cons.mp h
    rw [hintNamesList]
    exact List.forall_mem_append.mpr ⟨ht, ih hrest⟩

theorem typeAtom_plain : Yields (fun h => ∀ n ∈ hintNames h, n.resolved = none) typeAtom := by
  refine .skip fun start => .skip fun k => ?_
  split
  · exact .skip fun raw => .skip fun span => .pure (by simp [hintNames])
  · exact .fail _

theorem typeIntersection_plain :
    Yields (fun h => ∀ n ∈ hintNames h, n.resolved = none) typeIntersection := by
  refine typeAtom_plain.bind fun first hfirst => ?_
  refine (Yields.many (P := fun h => ∀ n ∈ hintNames h, n.resolved = none) ?_).bind
    fun others hothers => .pure ?_
  · refine .skip fun joined => ?_
    split
    · exact .skip fun _ => typeAtom_plain.bind fun h hh => .pure (by simpa using hh)
    · exact .pure (by simp)
  · split
    · exact hfirst
    · exact hintNamesList_plain (List.forall_mem_cons.mpr ⟨hfirst, hothers⟩)

theorem typeTerm_plain : Yields (fun h => ∀ n ∈ hintNames h, n.resolved = none) typeTerm := by
  refine .skip fun grouped => ?_
  split
  · exact typeIntersection_plain.bind fun h hh => .skip fun _ => .pure hh
  · exact typeIntersection_plain

theorem typeHint_plain : Yields (fun h => ∀ n ∈ hintNames h, n.resolved = none) typeHint := by
  refine .skip fun nullable => ?_
  split
  · exact typeAtom_plain.bind fun h hh => .pure hh
  · refine (typeTerm_plain.sepBy1 _).bind fun hints hhints => ?_
    split
    · next h => exact .pure (hhints h List.mem_cons_self)
    · exact .pure (hintNamesList_plain hhints)

theorem typeAfterColon_plain :
    Yields (fun o => ∀ h ∈ o, ∀ n ∈ hintNames h, n.resolved = none) typeAfterColon := by
  refine .skip fun colon => ?_
  split
  · exact typeHint_plain.optional
  · exact .pure (by simp)

/-- The method or the traits of a member of a class, without resolved names. -/
inductive ClassMember.Plain : ClassMember → Prop
  | method {m : MethodDecl} (h : ContractAudit.Plain m.names) : Plain (.method m)
  | traits {ns : List Name} (h : ∀ n ∈ ns, n.resolved = none) : Plain (.traits ns)
  | other : Plain .other

theorem traitUse_plain : Yields ClassMember.Plain traitUse := by
  refine .skip fun _ => classNames_plain.bind fun ns hns => .skip fun braces => ?_
  extract_lets rest
  have hrest : Yields ClassMember.Plain (rest ()) := .pure (.traits hns)
  split
  · exact .skip fun _ => hrest
  · exact .skip fun _ => hrest

/- What is kept of a class body. -/
theorem members_plain {ms : List ClassMember} (h : ∀ m ∈ ms, m.Plain) :
    (∀ n ∈ ms.flatMap (·.traitNames), n.resolved = none) ∧
    ∀ d ∈ ms.filterMap (·.method?), Plain d.names := by
  constructor
  · intro n hn
    obtain ⟨m, hm, hn⟩ := List.mem_flatMap.mp hn
    cases h m hm with
    | traits hns => exact hns n hn
    | method | other => cases hn
  · intro d hd
    obtain ⟨m, hm, hd⟩ := List.mem_filterMap.mp hd
    cases h m hm with
    | method hplain =>
      cases hd
      exact hplain
    | traits | other => cases hd

section
variable {g : Nested} (hg : g.Plain)
include hg

theorem param_plain : Yields (fun p => Plain p.names) (param g) := by
  refine .skip fun start => .skip fun _ => .skip fun promoted => .skip fun untyped => ?_
  extract_lets rest
  have hrest : ∀ h : Option TypeHint, (∀ h' ∈ h, ∀ n ∈ hintNames h', n.resolved = none) →
      Yields (fun p => Plain p.names) (rest h) := by
    intro h hh
    refine .skip fun byRef => .skip fun variadic => .skip fun lexeme => .skip fun assigned => ?_
    extract_lets last
    have hlast : ∀ e : Option Expr, (∀ e' ∈ e, Plain e'.names) →
        Yields (fun p => Plain p.names) (last e) := by
      intro e he
      exact .skip fun span => .pure (by simpa [Param.names] using ⟨hh, he⟩)
    split
    · exact (hg.expr 0).optional.bind hlast
    · exact (Yields.pure (by simp)).bind hlast
  split
  · exact (Yields.pure (by simp)).bind hrest
  · exact typeHint_plain.optional.bind hrest

theorem params_plain : Yields (fun ps => ∀ p ∈ ps, Plain p.names) (params g) :=
  .skip fun _ => ((param_plain hg).commaList _).bind fun _ hps => .skip fun _ => .pure hps

theorem block_plain : Yields (fun b => Plain b.names) (block g) := by
  refine .skip fun start => .skip fun _ => ?_
  refine (Yields.many (P := fun s : Stmt => Plain s.names) (.skip fun closed => ?_)).bind
    fun ss hss => .skip fun _ => .skip fun span => .pure (by simpa [Block.names] using hss)
  split
  · exact .pure (by simp)
  · refine .skip fun ended => ?_
    extract_lets rest
    have hrest : Yields (fun o => ∀ s ∈ o, Plain s.names) (rest ()) :=
      hg.stmt.bind fun s hs => .pure (by simpa using hs)
    split
    · exact .skip fun _ => hrest
    · exact hrest

theorem method_plain (modifiers : List Modifier) (doc : Option String) (start : Location) :
    Yields (fun m => Plain m.names) (method g modifiers doc start) := by
  refine .skip fun _ => .skip fun byRef => .skip fun name => (params_plain hg).bind fun ps hps =>
    typeAfterColon_plain.bind fun type htype => .skip fun braces => ?_
  extract_lets rest
  have hrest : ∀ b : Option Block, (∀ b' ∈ b, Plain b'.names) →
      Yields (fun m => Plain m.names) (rest b) := by
    intro b hb
    exact .skip fun span => .pure (by simpa [MethodDecl.names] using ⟨hps, htype, hb⟩)
  split
  · exact (block_plain hg).optional.bind hrest
  · exact .skip fun _ => (Yields.pure (by simp)).bind hrest

theorem controlBody_plain : Yields (fun s => Plain s.names) (controlBody g) := by
  refine .skip fun colon => ?_
  split
  · exact .refuse _
  · exact hg.stmt

theorem elseIf_plain : Yields (fun o => ∀ e ∈ o, Plain e.names) (elseIf g) := by
  refine .skip fun found => ?_
  split
  · exact (parenExpr_plain hg).bind fun e he => (controlBody_plain hg).bind fun s hs =>
      .pure (by simp [ElseIf.names, he, hs])
  · exact .pure (by simp)

theorem ifStmt_plain (start : Location) : Yields (fun s => Plain s.names) (ifStmt g start) := by
  refine .skip fun _ => (parenExpr_plain hg).bind fun e he => (controlBody_plain hg).bind
    fun y hy => (elseIf_plain hg).many.bind fun es hes => .skip fun found => ?_
  extract_lets rest
  have hrest : ∀ n : Option Stmt, (∀ s ∈ n, Plain s.names) →
      Yields (fun s => Plain s.names) (rest n) := by
    intro n hn
    exact .skip fun span => .pure (by simpa [Stmt.names, he, hy] using ⟨hes, hn⟩)
  split
  · exact (controlBody_plain hg).optional.bind hrest
  · exact (Yields.pure (by simp)).bind hrest

theorem whileStmt_plain (start : Location) : Yields (fun s => Plain s.names) (whileStmt g start) :=
  .skip fun _ => (parenExpr_plain hg).bind fun e he => (controlBody_plain hg).bind fun s hs =>
    .skip fun span => .pure (by simp [Stmt.names, he, hs])

theorem doWhileStmt_plain (start : Location) :
    Yields (fun s => Plain s.names) (doWhileStmt g start) :=
  .skip fun _ => hg.stmt.bind fun s hs => .skip fun _ => (parenExpr_plain hg).bind fun e he =>
    .skip fun _ => .skip fun span => .pure (by simp [Stmt.names, he, hs])

theorem forStmt_plain (start : Location) : Yields (fun s => Plain s.names) (forStmt g start) :=
  .skip fun _ => .skip fun _ => (exprList_plain hg _).bind fun is his => .skip fun _ =>
    (exprList_plain hg _).bind fun es hes => .skip fun _ => (exprList_plain hg _).bind fun ns hns =>
      .skip fun _ => (controlBody_plain hg).bind fun s hs => .skip fun span =>
        .pure (by simpa [Stmt.names, hs] using ⟨his, hes, hns⟩)

theorem foreachStmt_plain (start : Location) :
    Yields (fun s => Plain s.names) (foreachStmt g start) := by
  refine .skip fun _ => .skip fun _ => (hg.expr 0).bind fun e he => .skip fun _ =>
    (hg.expr 0).bind fun first hfirst => .skip fun keyed => ?_
  extract_lets rest
  have hrest : ∀ v : Option Expr, (∀ e ∈ v, Plain e.names) →
      Yields (fun s => Plain s.names) (rest v) := by
    intro v hv
    refine .skip fun _ => (controlBody_plain hg).bind fun s hs => .skip fun span => ?_
    -- with a second target the first is the key
    cases v with
    | none => exact .pure (by simp [Stmt.names, he, hfirst, hs])
    | some v =>
      have hv : Plain v.names := hv v rfl
      exact .pure (by simp [Stmt.names, he, hfirst, hv, hs])
  split
  · exact (hg.expr 0).optional.bind hrest
  · exact (Yields.pure (by simp)).bind hrest

theorem switchCase_plain : Yields (fun k => Plain k.names) (switchCase g) := by
  refine .skip fun labelled => ?_
  extract_lets rest
  have hrest : ∀ l : Option Expr, (∀ e ∈ l, Plain e.names) →
      Yields (fun k => Plain k.names) (rest l) := by
    intro l hl
    refine .skip fun colon => ?_
    extract_lets body
    have hbody : Yields (fun k => Plain k.names) (body ()) := by
      refine (Yields.many (P := fun s : Stmt => Plain s.names) (.skip fun k => ?_)).bind
        fun ss hss => .pure (by simpa [Case.names] using ⟨hl, hss⟩)
      split
      case h_1 | h_2 | h_3 | h_4 => exact .pure (by simp)
      case h_5 => exact hg.stmt.optional
    split
    · exact .skip fun _ => hbody
    · exact hbody
  split
  · exact (hg.expr 0).optional.bind hrest
  · exact .skip fun _ => (Yields.pure (by simp)).bind hrest

theorem switchStmt_plain (start : Location) :
    Yields (fun s => Plain s.names) (switchStmt g start) := by
  refine .skip fun _ => (parenExpr_plain hg).bind fun e he => .skip fun colon => ?_
  extract_lets rest
  have hrest : Yields (fun s => Plain s.names) (rest ()) := by
    refine .skip fun _ => (Yields.many (P := fun k : Case => Plain k.names)
      (.skip fun closed => ?_)).bind fun ks hks => .skip fun _ => .skip fun span =>
        .pure (by simpa [Stmt.names, he] using hks)
    split
    · exact .pure (by simp)
    · exact (switchCase_plain hg).bind fun k hk => .pure (by simpa using hk)
  split
  · exact .skip fun _ => hrest
  · exact hrest

theorem catchClause_plain : Yields (fun o => ∀ k ∈ o, Plain k.names) (catchClause g) := by
  refine .skip fun start => .skip fun found => ?_
  split
  · refine .skip fun _ => (className_plain.sepBy1 _).bind fun ts hts => .skip fun named => ?_
    extract_lets rest
    have hrest : ∀ x, Yields (fun o => ∀ k ∈ o, Plain k.names) (rest x) :=
      fun x => .skip fun _ => (block_plain hg).bind fun b hb => .skip fun span =>
        .pure (by simpa [Catch.names, hb] using hts)
    split
    · exact .skip hrest
    · exact .skip hrest
  · exact .pure (by simp)

theorem tryStmt_plain (start : Location) : Yields (fun s => Plain s.names) (tryStmt g start) := by
  refine .skip fun _ => (block_plain hg).bind fun b hb => (catchClause_plain hg).many.bind
    fun ks hks => .skip fun found => ?_
  extract_lets rest
  have hrest : ∀ l : Option Block, (∀ b' ∈ l, Plain b'.names) →
      Yields (fun s => Plain s.names) (rest l) := by
    intro l hl
    have htry (span : Span) : Plain (Stmt.tryCatch span b ks l).names := by
      simpa [Stmt.names, hb] using ⟨hks, hl⟩
    dsimp only [rest]
    split
    · exact .skip fun _ => .skip fun span => .pure (htry span)
    · exact .skip fun span => .pure (htry span)
  split
  · exact (block_plain hg).optional.bind hrest
  · exact (Yields.pure (by simp)).bind hrest

theorem returnStmt_plain (start : Location) :
    Yields (fun s => Plain s.names) (returnStmt g start) := by
  refine .skip fun _ => .skip fun bare => ?_
  extract_lets rest
  have hrest : ∀ v : Option Expr, (∀ e ∈ v, Plain e.names) →
      Yields (fun s => Plain s.names) (rest v) := by
    intro v hv
    exact .skip fun _ => .skip fun span => .pure (by simpa [Stmt.names] using hv)
  split
  · exact (Yields.pure (by simp)).bind hrest
  · exact (hg.expr 0).optional.bind hrest

theorem throwStmt_plain (start : Location) : Yields (fun s => Plain s.names) (throwStmt g start) :=
  .skip fun _ => (hg.expr 0).bind fun _ he => .skip fun _ => .skip fun _ => .pure he

theorem echoStmt_plain (start : Location) : Yields (fun s => Plain s.names) (echoStmt g start) :=
  .skip fun _ => ((hg.expr 0).sepBy1 _).bind fun es hes => .skip fun _ => .skip fun span =>
    .pure (by simpa [Stmt.names] using hes)

theorem unsetStmt_plain (start : Location) : Yields (fun s => Plain s.names) (unsetStmt g start) :=
  .skip fun _ => .skip fun _ => (exprList_plain hg _).bind fun es hes => .skip fun _ =>
    .skip fun _ => .skip fun span => .pure (by simpa [Stmt.names] using hes)

omit hg in
theorem globalStmt_plain (start : Location) : Yields (fun s => Plain s.names) (globalStmt start) :=
  .skip fun _ => .skip fun _ => .skip fun _ => .skip fun _ => .pure plain_nil

theorem staticVar_plain : Yields (fun v => Plain v.names) (staticVar g) := by
  refine .skip fun lexeme => .skip fun assigned => ?_
  extract_lets rest
  have hrest : ∀ v : Option Expr, (∀ e ∈ v, Plain e.names) →
      Yields (fun v => Plain v.names) (rest v) :=
    fun v hv => .pure (by simpa [StaticVar.names] using hv)
  split
  · exact (hg.expr 0).optional.bind hrest
  · exact (Yields.pure (by simp)).bind hrest

theorem staticStmt_plain (start : Location) :
    Yields (fun s => Plain s.names) (staticStmt g start) :=
  .skip fun _ => ((staticVar_plain hg).sepBy1 _).bind fun vs hvs => .skip fun _ =>
    .skip fun span => .pure (by simpa [Stmt.names] using hvs)

omit hg in
theorem jumpStmt_plain (jump : Jump) (start : Location) :
    Yields (fun s => Plain s.names) (jumpStmt jump start) :=
  .skip fun _ => .skip fun _ => .skip fun _ => .skip fun _ => .pure plain_nil

theorem declareStmt_plain (start : Location) :
    Yields (fun s => Plain s.names) (declareStmt g start) := by
  refine .skip fun _ => .skip fun _ => .skip fun _ => .skip fun braces => ?_
  split
  · exact (block_plain hg).bind fun b hb => .pure hb
  · exact .skip fun _ => .skip fun span => .pure plain_nil

theorem exprStmt_plain : Yields (fun s => Plain s.names) (exprStmt g) :=
  (expression_plain hg 0).bind fun _ he => .skip fun _ => .pure he

theorem statement_plain : Yields (fun s => Plain s.names) (statement g) := by
  refine .skip fun start => .skip fun _ => .skip fun declares => ?_
  split
  · exact .skip fun _ => .skip fun span => .pure plain_nil
  · refine .skip fun innerStart => .skip fun k => ?_
    split
    case h_1 => exact .fail _
    case h_2 => exact (block_plain hg).bind fun b hb => .pure hb
    case h_3 => exact .skip fun _ => .skip fun span => .pure plain_nil
    case h_4 => exact ifStmt_plain hg _
    case h_5 => exact whileStmt_plain hg _
    case h_6 => exact doWhileStmt_plain hg _
    case h_7 => exact forStmt_plain hg _
    case h_8 => exact foreachStmt_plain hg _
    case h_9 => exact switchStmt_plain hg _
    case h_10 => exact tryStmt_plain hg _
    case h_11 => exact returnStmt_plain hg _
    case h_12 => exact throwStmt_plain hg _
    case h_13 => exact echoStmt_plain hg _
    case h_14 => exact unsetStmt_plain hg _
    case h_15 => exact globalStmt_plain _
    case h_16 =>
      refine .skip fun var => ?_
      split
      · exact staticStmt_plain hg _
      · exact exprStmt_plain hg
    case h_17 | h_18 => exact jumpStmt_plain _ _
    case h_19 =>
      refine .skip fun named => ?_
      split
      · exact .skip fun _ => .skip fun span => .pure plain_nil
      · exact exprStmt_plain hg
    case h_20 => exact declareStmt_plain hg _
    case h_21 =>
      refine .skip fun colon => ?_
      split
      · exact .skip fun _ => .skip fun _ => .skip fun span => .pure plain_nil
      · exact exprStmt_plain hg
    case h_22 => exact exprStmt_plain hg

theorem classMember_plain : Yields (fun m => m.Plain) (classMember g) := by
  refine .skip fun start => .skip fun before => .skip fun _ => .skip fun next => .skip fun k => ?_
  split
  · exact traitUse_plain
  · exact .skip fun _ => .pure .other
  · refine .skip fun modifiers => .skip fun function => ?_
    split
    · exact (method_plain hg _ _ _).bind fun m hm => .pure (.method hm)
    · exact .skip fun _ => .pure .other

theorem classBody_plain : Yields (fun ms => ∀ m ∈ ms, m.Plain) (classBody g) := by
  refine .skip fun _ => ?_
  refine (Yields.many (P := ClassMember.Plain) (.skip fun closed => ?_)).bind
    fun ms hms => .skip fun _ => .pure hms
  split
  · exact .pure (by simp)
  · refine .skip fun ended => ?_
    extract_lets rest
    have hrest : Yields (fun o => ∀ m ∈ o, m.Plain) (rest ()) :=
      (classMember_plain hg).bind fun m hm => .pure (by simpa using hm)
    split
    · exact .skip fun _ => hrest
    · exact hrest

theorem typeDecl_asWritten (doc : Option String) : Yields TypeDecl.AsWritten (typeDecl g doc) := by
  refine .skip fun start => .skip fun modifiers => .skip fun word => ?_
  split
  · exact .fail _
  · refine .skip fun _ => .skip fun name => ?_
    -- what follows the parents, and the parents with what follows them
    extract_lets headed rest
    have hheaded : ∀ ps, (∀ n ∈ ps, n.resolved = none) → Yields TypeDecl.AsWritten (headed ps) := by
      intro ps hps
      refine .skip fun implementing => ?_
      extract_lets body
      have hbody : ∀ is, (∀ n ∈ is, n.resolved = none) → Yields TypeDecl.AsWritten (body is) := by
        intro is his
        refine (classBody_plain hg).bind fun ms hms => .skip fun span => .pure ⟨?_, rfl⟩
        obtain ⟨htraits, hmethods⟩ := members_plain hms
        exact plain_append.mpr ⟨plain_map_ofClass.mpr (List.forall_mem_append.mpr
          ⟨List.forall_mem_append.mpr ⟨hps, his⟩, htraits⟩), plain_flatMap.mpr hmethods⟩
      split
      · exact classNames_plain.bind hbody
      · exact (Yields.pure (by simp)).bind hbody
    have hrest : Yields TypeDecl.AsWritten (rest ()) := by
      refine .skip fun extended => ?_
      split
      · exact classNames_plain.bind hheaded
      · exact (Yields.pure (by simp)).bind hheaded
    split
    · exact .skip fun _ => hrest
    · exact hrest

theorem topLevelItem_asWritten {b : NamespaceBlock} (hb : b.AsWritten) :
    Yields NamespaceBlock.AsWritten (topLevelItem g b) := by
  refine .skip fun before => .skip fun _ => .skip fun declares => ?_
  split
  · refine .skip fun next => (typeDecl_asWritten hg _).bind fun t ht => .pure ?_
    exact List.forall_mem_append.mpr ⟨hb, by simpa using ht⟩
  · refine .skip fun k => ?_
    split
    · exact .skip fun uses => .pure hb
    · exact .skip fun _ => .pure hb
    · exact .skip fun _ => .pure hb

theorem bracedStep_asWritten {b : NamespaceBlock} (hb : b.AsWritten) :
    Yields (fun o => ∀ b ∈ o, b.AsWritten) (bracedStep g b) := by
  refine .skip fun closed => ?_
  split
  · exact .pure (by simp)
  · refine .skip fun ended => ?_
    split
    · exact .fail _
    · exact (topLevelItem_asWritten hg hb).bind fun b hb => .pure (by simpa using hb)

theorem bracedItems_asWritten {b : NamespaceBlock} (hb : b.AsWritten) :
    Yields NamespaceBlock.AsWritten (bracedItems g b) :=
  (Yields.iterate hb fun _ hb => bracedStep_asWritten hg hb).bind fun _ hb =>
    .skip fun _ => .pure hb

omit hg in
theorem closeBlock_asWritten {done : List NamespaceBlock} {b : NamespaceBlock}
    (hdone : ∀ b ∈ done, b.AsWritten) (hb : b.AsWritten) (finish : Location) (keepEmpty : Bool) :
    ∀ b' ∈ closeBlock done b finish keepEmpty, b'.AsWritten := by
  unfold closeBlock
  split
  · exact List.forall_mem_cons.mpr ⟨hb, hdone⟩
  · exact hdone

omit hg in
theorem emptyBlock_asWritten (name : Option String) (start : Location) :
    (emptyBlock name start).AsWritten := by
  intro t ht
  cases ht

theorem namespaceDecl_asWritten {bs : Blocks} (hbs : bs.AsWritten) :
    Yields Blocks.AsWritten (namespaceDecl g bs) := by
  refine .skip fun start => .skip fun _ => .skip fun named => ?_
  extract_lets rest
  have hrest : ∀ name, Yields Blocks.AsWritten (rest name) := by
    intro name
    refine .skip fun finish => .skip fun braces => ?_
    have hdone := closeBlock_asWritten hbs.done hbs.current finish false
    have hopened := emptyBlock_asWritten name start
    split
    · refine (bracedItems_asWritten hg hopened).bind fun b hb => .skip fun finish' =>
        .skip fun next => .pure ?_
      exact ⟨closeBlock_asWritten hdone hb finish' true, emptyBlock_asWritten none next⟩
    · exact .skip fun _ => .pure ⟨hdone, hopened⟩
  split
  · exact .skip hrest
  · exact .skip hrest

theorem fileStep_asWritten {bs : Blocks} (hbs : bs.AsWritten) :
    Yields (fun o => ∀ bs ∈ o, bs.AsWritten) (fileStep g bs) := by
  refine .skip fun ended => ?_
  split
  · exact .pure (by simp)
  · refine .skip fun declares => ?_
    split
    · exact (namespaceDecl_asWritten hg hbs).bind fun bs hbs => .pure (by simpa using hbs)
    · exact (topLevelItem_asWritten hg hbs.current).bind fun b hb =>
        .pure (by simpa using ⟨hbs.done, hb⟩)

theorem file_asWritten : Yields Program.AsWritten (file g) := by
  refine .skip fun start => ?_
  have hempty : Blocks.AsWritten ⟨[], emptyBlock none start⟩ :=
    ⟨by simp, emptyBlock_asWritten none start⟩
  refine (Yields.iterate hempty fun bs hbs => fileStep_asWritten hg hbs).bind fun bs hbs =>
    .skip fun finish => .skip fun span => .pure ⟨?_, rfl⟩
  have hblocks := closeBlock_asWritten hbs.done hbs.current finish bs.done.isEmpty
  simpa using hblocks

end

theorem levels_plain (n : Nat) : (levels n).Plain := by
  induction n with
  | zero => exact ⟨fun _ => .refuse _, .refuse _, .refuse _⟩
  | succ n ih => exact ⟨expression_plain ih, primary_plain ih, statement_plain ih⟩

end Grammar

theorem Program.ofTokens_asWritten {ts : List Token} {p : Program} (h : ofTokens ts = .ok p) :
    p.AsWritten := by
  have hfile := Grammar.file_asWritten (Grammar.levels_plain (ts.length + 1))
  unfold ofTokens Grammar.Parser.run at h
  split at h
  · next a c hrun =>
    cases h
    exact hfile _ _ _ hrun
  · cases h

end ContractAudit
