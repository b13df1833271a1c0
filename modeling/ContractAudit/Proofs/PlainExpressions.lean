import ContractAudit.Grammar.Expression
import ContractAudit.Proofs.NameUse
import ContractAudit.Proofs.Yields

/-! Expressions as they are read. Main statement: no name in them is resolved, if none is in the
nested parts. -/
namespace ContractAudit

/-- None of the names is resolved. -/
def Plain (us : List NameUse) : Prop := ∀ u ∈ us, u.name.resolved = none

section
variable {us vs : List NameUse} {n : Name}

@[simp]
theorem plain_nil : Plain [] := by simp [Plain]

@[simp]
theorem plain_append : Plain (us ++ vs) ↔ Plain us ∧ Plain vs := by
  simp only [Plain, List.mem_append, or_imp, forall_and]

@[simp]
theorem plain_bare : Plain [.bare n] ↔ n.resolved = none := by simp [Plain, NameUse.name]

@[simp]
theorem plain_map_ofClass {ns : List Name} :
    Plain (ns.map .ofClass) ↔ ∀ n ∈ ns, n.resolved = none := by
  simp [Plain, NameUse.name]

/- Names that are collected along a list. -/
theorem plain_list {α : Type} {names : α → List NameUse} {all : List α → List NameUse}
    (hnil : all [] = []) (hcons : ∀ a as, all (a :: as) = names a ++ all as) {as : List α} :
    Plain (all as) ↔ ∀ a ∈ as, Plain (names a) := by
  induction as with
  | nil => simp [hnil]
  | cons a as ih => simp [hcons, ih]

@[simp]
theorem plain_flatMap {α : Type} {as : List α} {names : α → List NameUse} :
    Plain (as.flatMap names) ↔ ∀ a ∈ as, Plain (names a) :=
  plain_list List.flatMap_nil fun _ _ => List.flatMap_cons

@[simp]
theorem plain_namesOption {e : Option Expr} :
    Plain (Expr.namesOption e) ↔ ∀ e' ∈ e, Plain e'.names := by
  cases e <;> simp [Expr.namesOption]

@[simp]
theorem plain_namesList {es : List Expr} : Plain (Expr.namesList es) ↔ ∀ e ∈ es, Plain e.names :=
  plain_list rfl fun _ _ => rfl

@[simp]
theorem plain_namesItems {is : List Item} :
    Plain (Expr.namesItems is) ↔ ∀ i ∈ is, Plain i.names :=
  plain_list rfl fun _ _ => rfl

@[simp]
theorem plain_namesArgs {as : List Arg} : Plain (Expr.namesArgs as) ↔ ∀ a ∈ as, Plain a.names :=
  plain_list rfl fun _ _ => rfl

@[simp]
theorem plain_namesArms {as : List Arm} : Plain (Expr.namesArms as) ↔ ∀ a ∈ as, Plain a.names :=
  plain_list rfl fun _ _ => rfl

end

namespace Grammar

open Source

/-- The parsers for nested parts give trees without resolved names. -/
structure Nested.Plain (g : Nested) : Prop where
  expr : ∀ least, Yields (fun e => ContractAudit.Plain e.names) (g.expr least)
  primary : Yields (fun e => ContractAudit.Plain e.names) g.primary
  stmt : Yields (fun s => ContractAudit.Plain s.names) g.stmt

theorem className_plain : Yields (fun n => n.resolved = none) className :=
  .skip fun _ => .skip fun _ => .skip fun _ => .pure rfl

theorem classNames_plain : Yields (fun ns => ∀ n ∈ ns, n.resolved = none) classNames :=
  className_plain.sepBy1 _

theorem plain_ofName {n : Name} (h : n.resolved = none) : Plain (ClassRef.ofName n).names := by
  unfold ClassRef.ofName
  repeat' split
  all_goals simp [ClassRef.names, Plain, NameUse.name, h]

section
variable {g : Nested} (hg : g.Plain)
include hg

theorem parenExpr_plain : Yields (fun e => Plain e.names) (parenExpr g) :=
  .skip fun _ => (hg.expr 0).bind fun _ he => .skip fun _ => .pure he

theorem exprList_plain (close : TokenKind) :
    Yields (fun es => ∀ e ∈ es, Plain e.names) (exprList g close) :=
  (hg.expr 0).commaList _

theorem arg_plain : Yields (fun a => Plain a.names) (arg g) := by
  refine .skip fun spread => .skip fun named => .skip fun colon => ?_
  split
  · exact .skip fun name => .skip fun _ => (hg.expr 0).bind fun e he => .pure he
  · exact (hg.expr 0).bind fun e he => .pure he

theorem callArgs_plain : Yields (fun r => ∀ a ∈ r.1, Plain a.names) (callArgs g) := by
  refine .skip fun _ => .skip fun dots => .skip fun closed => ?_
  extract_lets firstClass rest
  have hrest : ∀ as, (∀ a ∈ as, Plain a.names) →
      Yields (fun r => ∀ a ∈ r.1, Plain a.names) (rest as) :=
    fun as has => .skip fun _ => .pure has
  split
  · exact .skip fun _ => (Yields.pure (by simp)).bind hrest
  · exact ((arg_plain hg).commaList _).bind hrest

theorem optionalArgs_plain : Yields (fun as => ∀ a ∈ as, Plain a.names) (optionalArgs g) := by
  refine .skip fun present => ?_
  split
  · exact (callArgs_plain hg).bind fun r hr => .pure hr
  · exact .pure (by simp)

theorem item_plain : Yields (fun i => Plain i.names) (item g) := by
  refine .skip fun spread => (hg.expr 0).bind fun first hfirst => .skip fun keyed => ?_
  split
  · exact .skip fun byRef => (hg.expr 0).bind fun e he => .pure (by simp [Item.names, hfirst, he])
  · exact .pure (by simp [Item.names, hfirst])

theorem arrayItems_plain (close : TokenKind) :
    Yields (fun is => ∀ i ∈ is, Plain i.names) (arrayItems g close) := by
  refine (Yields.iterate (P := fun found : List Item × Bool => ∀ i ∈ found.1, Plain i.names)
    (by simp) ?_).bind fun found hfound => .pure (by simpa using hfound)
  intro found hfound
  dsimp only
  split
  · exact .pure (by simp)
  · refine .skip fun closed => ?_
    split
    · exact .pure (by simpa using hfound)
    · refine .skip fun slot => ?_
      split
      · exact .pure (by simpa using hfound)
      · refine (item_plain hg).bind fun i hi => .skip fun more => ?_
        have hnext : ∀ j ∈ i :: found.1, Plain j.names := List.forall_mem_cons.mpr ⟨hi, hfound⟩
        split
        · exact .pure (by simpa using hnext)
        · exact .skip fun _ => .pure (by simpa using hnext)

theorem member_plain : Yields (fun m => Plain m.names) (member g) := by
  refine .skip fun start => .skip fun k => ?_
  split
  · exact .skip fun lexeme => .skip fun span => .pure plain_nil
  · exact .skip fun _ => (hg.expr 0).bind fun e he => .skip fun _ => .pure he
  · exact .skip fun name => .pure plain_nil

theorem armConditions_plain : Yields (fun es => ∀ e ∈ es, Plain e.names) (armConditions g) := by
  refine (hg.expr 0).bind fun first hfirst => ?_
  refine (Yields.many (P := fun e : Expr => Plain e.names) (.skip fun comma => ?_)).bind
    fun others hothers => .pure (List.forall_mem_cons.mpr ⟨hfirst, hothers⟩)
  split
  · refine .skip fun arrow => ?_
    split
    · exact .pure (by simp)
    · exact (hg.expr 0).bind fun e he => .pure (by simpa using he)
  · exact .pure (by simp)

theorem arm_plain : Yields (fun a => Plain a.names) (arm g) := by
  refine .skip fun default => ?_
  split
  · exact .skip fun _ => (hg.expr 0).bind fun e he => .pure he
  · exact (armConditions_plain hg).bind fun es hes => .skip fun _ =>
      (hg.expr 0).bind fun e he => .pure (by simp [Arm.names, he]; exact hes)

theorem matchExpr_plain : Yields (fun e => Plain e.names) (matchExpr g) :=
  .skip fun _ => .skip fun _ => (parenExpr_plain hg).bind fun e he => .skip fun _ =>
    ((arm_plain hg).commaList _).bind fun arms harms => .skip fun _ => .skip fun _ =>
      .pure (by simp [Expr.names, he]; exact harms)

theorem newClassExpr_plain : Yields (fun e => Plain e.names) (newClassExpr g) := by
  refine .skip fun start => hg.primary.bind fun first hfirst => ?_
  refine Yields.iterate hfirst fun e he => .skip fun k => ?_
  split
  case h_1 | h_2 =>
    exact .skip fun nullsafe => .skip fun _ => (member_plain hg).bind fun m hm =>
      .skip fun span => .pure (by simp [Expr.names, he, hm])
  case h_3 =>
    refine .skip fun var => ?_
    split
    · exact .skip fun _ => .skip fun lexeme => .skip fun span =>
        .pure (by simpa [Expr.names, ClassRef.names] using he)
    · exact .pure (by simp)
  case h_4 =>
    exact .skip fun _ => (hg.expr 0).bind fun i hi => .skip fun _ => .skip fun span =>
      .pure (by simp [Expr.names, he, hi])
  case h_5 => exact .pure (by simp)

omit hg in
theorem staticRef_plain : Yields (fun r => Plain r.names) staticRef :=
  .skip fun _ => .skip fun _ => .skip fun _ => .pure plain_nil

theorem newClass_plain : Yields (fun r => Plain r.names) (newClass g) := by
  refine .skip fun k => ?_
  split
  · exact className_plain.bind fun n hn => .pure (plain_ofName hn)
  · exact staticRef_plain
  · exact (parenExpr_plain hg).bind fun e he => .pure he
  case h_4 | h_5 => exact (newClassExpr_plain hg).bind fun e he => .pure he
  · exact .fail _

theorem anonymousClass_plain : Yields (fun as => ∀ a ∈ as, Plain a.names) (anonymousClass g) := by
  refine (optionalArgs_plain hg).bind fun as has => .skip fun extended => ?_
  extract_lets body rest
  have hbody : Yields (fun as => ∀ a ∈ as, Plain a.names) (body ()) := .skip fun _ => .pure has
  have hrest : Yields (fun as => ∀ a ∈ as, Plain a.names) (rest ()) := by
    refine .skip fun implementing => ?_
    split
    · exact .skip fun _ => hbody
    · exact hbody
  split
  · exact .skip fun _ => hrest
  · exact hrest

theorem newExpr_plain : Yields (fun e => Plain e.names) (newExpr g) := by
  refine .skip fun start => .skip fun _ => .skip fun anonymous => ?_
  split
  · exact (anonymousClass_plain hg).bind fun as has => .skip fun span =>
      .pure (by simpa [Expr.names, ClassRef.names] using has)
  · exact (newClass_plain hg).bind fun r hr => (optionalArgs_plain hg).bind fun as has =>
      .skip fun span => .pure (by simpa [Expr.names, hr] using has)

omit hg in
theorem closure_plain : Yields (fun e => Plain e.names) (closure g) := by
  refine .skip fun start => .skip fun _ => .skip fun arrow => ?_
  split
  · exact .skip fun _ => .skip fun _ => .skip fun _ => .skip fun _ => .skip fun _ =>
      .skip fun _ => .pure plain_nil
  · exact .skip fun _ => .skip fun _ => .skip fun _ => .skip fun _ => .skip fun _ =>
      .skip fun _ => .skip fun _ => .pure plain_nil

theorem variableVariable_plain : Yields (fun e => Plain e.names) (variableVariable g) := by
  refine .skip fun braces => ?_
  split
  · exact (hg.expr 0).bind fun e he => .skip fun _ => .pure he
  · exact hg.primary

theorem primary_plain : Yields (fun e => Plain e.names) (primary g) := by
  refine .skip fun start => .skip fun k => ?_
  split
  case h_1 | h_19 => exact .fail _
  case h_2 | h_4 | h_5 | h_6 => exact .skip fun lexeme => .skip fun span => .pure plain_nil
  case h_3 =>
    exact .skip fun _ => (variableVariable_plain hg).bind fun e he => .skip fun span => .pure he
  case h_7 => exact parenExpr_plain hg
  case h_8 =>
    exact .skip fun _ => (arrayItems_plain hg _).bind fun is his => .skip fun span =>
      .pure (by simpa [Expr.names] using his)
  case h_9 =>
    refine .skip fun paren => ?_
    split
    · exact .skip fun _ => .skip fun _ => (arrayItems_plain hg _).bind fun is his =>
        .skip fun span => .pure (by simpa [Expr.names] using his)
    · exact .fail _
  case h_10 =>
    exact .skip fun _ => .skip fun _ => (arrayItems_plain hg _).bind fun is his =>
      .skip fun span => .pure (by simpa [Expr.names] using his)
  case h_11 =>
    exact .skip fun _ => .skip fun _ => (exprList_plain hg _).bind fun es hes => .skip fun _ =>
      .skip fun span => .pure (by simpa [Expr.names] using hes)
  case h_12 => exact .skip fun _ => (parenExpr_plain hg).bind fun e he => .skip fun span => .pure he
  case h_13 => exact matchExpr_plain hg
  case h_14 => exact newExpr_plain hg
  case h_15 | h_16 => exact closure_plain
  case h_17 =>
    refine .skip fun next => ?_
    split
    · exact closure_plain
    · exact .skip fun _ => .skip fun span => .pure (by simp [Expr.names])
  case h_18 => exact className_plain.bind fun n hn => .pure (by simpa [Expr.names] using hn)

theorem staticMember_plain {r : ClassRef} (hr : Plain r.names) (start : Location) :
    Yields (fun e => Plain e.names) (staticMember g r start) := by
  refine .skip fun memberStart => .skip fun k => ?_
  split
  · refine .skip fun lexeme => .skip fun span => .skip fun call => ?_
    split
    · exact (callArgs_plain hg).bind fun args hargs => .skip fun span =>
        .pure (by simpa [Expr.names, Member.names, hr] using hargs)
    · exact .skip fun span => .pure hr
  · exact .skip fun _ => (hg.expr 0).bind fun name hname => .skip fun _ =>
      (callArgs_plain hg).bind fun args hargs => .skip fun span =>
        .pure (by simpa [Expr.names, Member.names, hr, hname] using hargs)
  · refine .skip fun name => .skip fun call => ?_
    split
    · exact (callArgs_plain hg).bind fun args hargs => .skip fun span =>
        .pure (by simpa [Expr.names, Member.names, hr] using hargs)
    · exact .skip fun span => .pure hr

omit hg in
theorem classOf_plain {e : Expr} (h : Plain e.names) : Plain (classOf e).names := by
  cases e with
  | name n => exact plain_ofName (by simpa [Expr.names] using h)
  | _ => exact h

theorem postfixStep_plain (start : Location) {e : Expr} (he : Plain e.names) :
    Yields (fun o => ∀ e' ∈ o, Plain e'.names) (postfixStep g start e) := by
  refine .skip fun k => ?_
  split
  case h_1 | h_2 =>
    refine .skip fun nullsafe => .skip fun _ => (member_plain hg).bind fun m hm =>
      .skip fun call => ?_
    split
    · exact (callArgs_plain hg).bind fun args hargs => .skip fun span =>
        .pure (by simpa [Expr.names, he, hm] using hargs)
    · exact .skip fun span => .pure (by simp [Expr.names, he, hm])
  case h_3 =>
    exact .skip fun _ => (staticMember_plain hg (classOf_plain he) start).bind fun e' he' =>
      .pure (by simpa using he')
  case h_4 =>
    exact (callArgs_plain hg).bind fun args hargs => .skip fun span =>
      .pure (by simpa [Expr.names, he] using hargs)
  case h_5 =>
    refine .skip fun _ => .skip fun bare => ?_
    extract_lets rest
    have hrest : ∀ i : Option Expr, (∀ e ∈ i, Plain e.names) →
        Yields (fun o => ∀ e' ∈ o, Plain e'.names) (rest i) :=
      fun i hi => .skip fun _ => .skip fun span => .pure (by simpa [Expr.names, he] using hi)
    split
    · exact (Yields.pure (by simp)).bind hrest
    · exact (hg.expr 0).optional.bind hrest
  case h_6 | h_7 => exact .skip fun _ => .skip fun span => .pure (by simpa [Expr.names] using he)
  case h_8 => exact .pure (by simp)

theorem postfixed_plain : Yields (fun e => Plain e.names) (postfixed g) :=
  (primary_plain hg).bind fun _ he => Yields.iterate he fun _ => postfixStep_plain hg _

theorem yieldExpr_plain : Yields (fun e => Plain e.names) (yieldExpr g) := by
  refine .skip fun start => .skip fun _ => .skip fun fromAll => ?_
  split
  · exact .skip fun _ => (hg.expr _).bind fun e he => .skip fun span =>
      .pure (by simpa [Expr.names] using he)
  · refine .skip fun ends => ?_
    split
    · exact .skip fun span => .pure (by simp [Expr.names])
    · refine (hg.expr _).bind fun first hfirst => .skip fun keyed => ?_
      split
      · exact (hg.expr _).bind fun e he => .skip fun span =>
          .pure (by simp [Expr.names, hfirst, he])
      · exact .skip fun span => .pure (by simp [Expr.names, hfirst])

theorem operand_plain : Yields (fun e => Plain e.names) (operand g) := by
  refine .skip fun start => .skip fun type => ?_
  split
  · exact .skip fun _ => .skip fun _ => .skip fun _ => (hg.expr _).bind fun e he =>
      .skip fun span => .pure he
  · refine .skip fun k => ?_
    split
    · exact .skip fun _ => (hg.expr _).bind fun e he => .skip fun span => .pure he
    · refine .skip fun k => ?_
      split
      · exact .skip fun _ => (hg.expr _).bind fun e he => .skip fun span => .pure he
      · refine .skip fun k => ?_
        split
        · exact .skip fun _ => (hg.expr _).bind fun e he => .skip fun span => .pure he
        · exact yieldExpr_plain hg
        · exact postfixed_plain hg

theorem instanceOfClass_plain : Yields (fun r => Plain r.names) (instanceOfClass g) := by
  refine .skip fun k => ?_
  split
  · exact className_plain.bind fun n hn => .pure (plain_ofName hn)
  · exact staticRef_plain
  · exact (hg.expr _).bind fun e he => .pure he

theorem assignStep_plain (start : Location) {e : Expr} (he : Plain e.names) (op : AssignOp) :
    Yields (fun o => ∀ e' ∈ o, Plain e'.names) (assignStep g start e op) := by
  unfold assignStep
  split
  · refine .skip fun _ => ?_
    extract_lets rest
    have hrest : ∀ op, Yields (fun o => ∀ e' ∈ o, Plain e'.names) (rest op) :=
      fun op => (hg.expr _).bind fun v hv => .skip fun span => .pure (by simp [Expr.names, he, hv])
    split
    · refine .skip fun byRef => ?_
      split
      · exact .skip hrest
      · exact .skip hrest
    · exact .skip hrest
  · exact .pure (by simp)

theorem ternaryStep_plain (start : Location) (least : Nat) {e : Expr} (he : Plain e.names) :
    Yields (fun o => ∀ e' ∈ o, Plain e'.names) (ternaryStep g start least e) := by
  unfold ternaryStep
  split
  · exact .pure (by simp)
  · refine .skip fun _ => .skip fun short => ?_
    extract_lets rest
    have hrest : ∀ y : Option Expr, (∀ e ∈ y, Plain e.names) →
        Yields (fun o => ∀ e' ∈ o, Plain e'.names) (rest y) :=
      fun y hy => (hg.expr _).bind fun n hn => .skip fun span =>
        .pure (by simpa [Expr.names, he, hn] using hy)
    split
    · exact (Yields.pure (by simp)).bind hrest
    · exact (hg.expr 0).bind fun y hy => .skip fun _ => (Yields.pure (by simpa using hy)).bind hrest

theorem operatorStep_plain (start : Location) (least : Nat) {e : Expr} (he : Plain e.names) :
    Yields (fun o => ∀ e' ∈ o, Plain e'.names) (operatorStep g start least e) := by
  refine .skip fun k => ?_
  split
  · exact .pure (by simp)
  · split
    · exact assignStep_plain hg start he _
    · split
      · exact ternaryStep_plain hg start least he
      · split
        · split
          · exact .pure (by simp)
          · exact .skip fun _ => (instanceOfClass_plain hg).bind fun r hr => .skip fun span =>
              .pure (by simp [Expr.names, he, hr])
        · split
          · split
            · exact .skip fun _ => (hg.expr _).bind fun rhs hrhs => .skip fun span =>
                .pure (by simp [Expr.names, he, hrhs])
            · exact .pure (by simp)
          · exact .pure (by simp)

theorem expression_plain (least : Nat) : Yields (fun e => Plain e.names) (expression g least) :=
  .skip fun start => (operand_plain hg).bind fun _ he =>
    Yields.iterate he fun _ => operatorStep_plain hg start least

end

end Grammar

end ContractAudit
