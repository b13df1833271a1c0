import ContractAudit.Naming.Resolve
import ContractAudit.Signature.Basic
import ContractAudit.Syntax.Walk

/-! The names in a tree, each with the place where it stands. Main statements: resolving a tree
resolves the names in place of a class and leaves the others, and every class that the walk comes to
by its name is among them. -/
namespace ContractAudit

/-- A name in place of a class, or of a constant or a function. -/
inductive NameUse where
  | ofClass (n : Name)
  | bare (n : Name)

namespace NameUse

def name : NameUse → Name
  | ofClass n | bare n => n

def resolve (c : NameContext) : NameUse → NameUse
  | ofClass n => ofClass (n.resolve c)
  | bare n => bare n

theorem map_ofClass_resolve (c : NameContext) (ns : List Name) :
    (ns.map (·.resolve c)).map ofClass = (ns.map ofClass).map (·.resolve c) := by
  simp only [List.map_map]
  rfl

end NameUse

mutual

/-- The names in an expression. -/
def Expr.names : Expr → List NameUse
  | .var .. | .literal .. | .closure .. => []
  | .name n => [.bare n]
  | .varVar _ e | .unary _ _ e | .cast _ _ e | .word _ _ e | .throwing _ e => e.names
  | .items _ _ is => Expr.namesItems is
  | .new _ r as => r.names ++ Expr.namesArgs as
  | .methodCall _ t m as _ _ => t.names ++ m.names ++ Expr.namesArgs as
  | .staticCall _ r m as _ => r.names ++ m.names ++ Expr.namesArgs as
  | .call _ f as => f.names ++ Expr.namesArgs as
  | .property _ t m _ => t.names ++ m.names
  | .staticProperty _ r _ | .classConst _ r _ => r.names
  | .index _ t i => t.names ++ Expr.namesOption i
  | .assign _ _ a b | .binary _ _ a b => a.names ++ b.names
  | .ternary _ b y n => b.names ++ Expr.namesOption y ++ n.names
  | .instanceOf _ e r => e.names ++ r.names
  | .isset _ es => Expr.namesList es
  | .yielding _ k v _ => Expr.namesOption k ++ Expr.namesOption v
  | .matching _ e arms => e.names ++ Expr.namesArms arms

def Expr.namesOption : Option Expr → List NameUse
  | none => []
  | some e => e.names

def Expr.namesList : List Expr → List NameUse
  | [] => []
  | e :: es => e.names ++ Expr.namesList es

def Expr.namesItems : List Item → List NameUse
  | [] => []
  | i :: is => i.names ++ Expr.namesItems is

def Item.names : Item → List NameUse
  | ⟨k, v, _, _⟩ => Expr.namesOption k ++ v.names

def Expr.namesArgs : List Arg → List NameUse
  | [] => []
  | a :: as => a.names ++ Expr.namesArgs as

def Arg.names : Arg → List NameUse
  | ⟨_, v, _⟩ => v.names

def Expr.namesArms : List Arm → List NameUse
  | [] => []
  | a :: as => a.names ++ Expr.namesArms as

def Arm.names : Arm → List NameUse
  | .cases es b => Expr.namesList es ++ b.names
  | .default b => b.names

def Member.names : Member → List NameUse
  | .ident _ => []
  | .dynamic e => e.names

def ClassRef.names : ClassRef → List NameUse
  | .named n => [.ofClass n]
  | .dynamic e => e.names
  | .selfRef _ | .staticRef _ | .parentRef _ | .anonymous _ => []

end

def StaticVar.names (v : StaticVar) : List NameUse := Expr.namesOption v.start

mutual

/-- The names in a statement. -/
def Stmt.names : Stmt → List NameUse
  | .expr e | .throwing _ e => e.names
  | .block b => b.names
  | .returning _ v => Expr.namesOption v
  | .ifElse _ e y es n => e.names ++ (y.names ++ Stmt.namesElseIfs es ++ Stmt.namesOption n)
  | .whileLoop _ e b => e.names ++ b.names
  | .doWhile _ b e => b.names ++ e.names
  | .forLoop _ i e n b =>
    Expr.namesList i ++ Expr.namesList e ++ Expr.namesList n ++ b.names
  | .foreach _ e k v b => e.names ++ Expr.namesOption k ++ (v.names ++ b.names)
  | .switch _ e cs => e.names ++ Stmt.namesCases cs
  | .tryCatch _ b cs l => b.names ++ Stmt.namesCatches cs ++ Block.namesOption l
  | .echo _ es | .unset _ es => Expr.namesList es
  | .staticVars _ vs => vs.flatMap (·.names)
  | .globals .. | .jump .. | .declaration .. | .nop .. => []

def Stmt.namesOption : Option Stmt → List NameUse
  | none => []
  | some s => s.names

def Stmt.namesList : List Stmt → List NameUse
  | [] => []
  | s :: ss => s.names ++ Stmt.namesList ss

def Stmt.namesElseIfs : List ElseIf → List NameUse
  | [] => []
  | e :: es => e.names ++ Stmt.namesElseIfs es

def ElseIf.names : ElseIf → List NameUse
  | ⟨e, b⟩ => e.names ++ b.names

def Stmt.namesCases : List Case → List NameUse
  | [] => []
  | k :: ks => k.names ++ Stmt.namesCases ks

def Case.names : Case → List NameUse
  | ⟨l, b⟩ => Expr.namesOption l ++ Stmt.namesList b

def Stmt.namesCatches : List Catch → List NameUse
  | [] => []
  | k :: ks => k.names ++ Stmt.namesCatches ks

def Catch.names : Catch → List NameUse
  | ⟨_, ts, _, b⟩ => ts.map .ofClass ++ b.names

def Block.namesOption : Option Block → List NameUse
  | none => []
  | some b => b.names

def Block.names : Block → List NameUse
  | ⟨_, ss⟩ => Stmt.namesList ss

end

/-- The names at every level of a type that may be left out. -/
def TypeHint.namesOption : Option TypeHint → List NameUse
  | none => []
  | some h => (Signature.hintNames h).map .ofClass

def Param.names (p : Param) : List NameUse :=
  TypeHint.namesOption p.hint ++ Expr.namesOption p.default

def MethodDecl.names (m : MethodDecl) : List NameUse :=
  m.params.flatMap (·.names) ++ TypeHint.namesOption m.returnType ++ Block.namesOption m.body

/-- The names in the declaration of a type, with those in its methods. -/
def TypeDecl.names (t : TypeDecl) : List NameUse :=
  (t.parents ++ t.interfaces ++ t.traits).map .ofClass ++ t.methods.flatMap (·.names)

section
variable (c : NameContext)

mutual

theorem Expr.names_resolve (e : Expr) : (e.resolve c).names = e.names.map (·.resolve c) := by
  cases e with
  | var | literal | name | closure => rfl
  | varVar _ e | unary _ _ e | cast _ _ e | word _ _ e | throwing _ e => exact e.names_resolve
  | items _ _ is => exact Expr.namesItems_resolve is
  | new _ r as => simp [Expr.resolve, Expr.names, r.names_resolve, Expr.namesArgs_resolve as]
  | methodCall _ t m as =>
    simp [Expr.resolve, Expr.names, t.names_resolve, m.names_resolve, Expr.namesArgs_resolve as]
  | staticCall _ r m as =>
    simp [Expr.resolve, Expr.names, r.names_resolve, m.names_resolve, Expr.namesArgs_resolve as]
  | call _ f as => simp [Expr.resolve, Expr.names, f.names_resolve, Expr.namesArgs_resolve as]
  | property _ t m => simp [Expr.resolve, Expr.names, t.names_resolve, m.names_resolve]
  | staticProperty _ r | classConst _ r => exact r.names_resolve
  | index _ t i => simp [Expr.resolve, Expr.names, t.names_resolve, Expr.namesOption_resolve i]
  | assign _ _ a b | binary _ _ a b =>
    simp [Expr.resolve, Expr.names, a.names_resolve, b.names_resolve]
  | ternary _ b y n =>
    simp [Expr.resolve, Expr.names, b.names_resolve, Expr.namesOption_resolve y, n.names_resolve]
  | instanceOf _ e r => simp [Expr.resolve, Expr.names, e.names_resolve, r.names_resolve]
  | isset _ es => exact Expr.namesList_resolve es
  | yielding _ k v =>
    simp [Expr.resolve, Expr.names, Expr.namesOption_resolve k, Expr.namesOption_resolve v]
  | matching _ e arms =>
    simp [Expr.resolve, Expr.names, e.names_resolve, Expr.namesArms_resolve arms]

theorem Expr.namesOption_resolve (e : Option Expr) :
    Expr.namesOption (Expr.resolveOption c e) = (Expr.namesOption e).map (·.resolve c) := by
  cases e with
  | none => rfl
  | some e => exact e.names_resolve

theorem Expr.namesList_resolve (es : List Expr) :
    Expr.namesList (Expr.resolveList c es) = (Expr.namesList es).map (·.resolve c) := by
  cases es with
  | nil => rfl
  | cons e es =>
    simp [Expr.resolveList, Expr.namesList, e.names_resolve, Expr.namesList_resolve es]

theorem Expr.namesItems_resolve (is : List Item) :
    Expr.namesItems (Expr.resolveItems c is) = (Expr.namesItems is).map (·.resolve c) := by
  cases is with
  | nil => rfl
  | cons i is =>
    simp [Expr.resolveItems, Expr.namesItems, i.names_resolve, Expr.namesItems_resolve is]

theorem Item.names_resolve (i : Item) : (i.resolve c).names = i.names.map (·.resolve c) := by
  cases i with
  | mk k v => simp [Item.resolve, Item.names, Expr.namesOption_resolve k, v.names_resolve]

theorem Expr.namesArgs_resolve (as : List Arg) :
    Expr.namesArgs (Expr.resolveArgs c as) = (Expr.namesArgs as).map (·.resolve c) := by
  cases as with
  | nil => rfl
  | cons a as => simp [Expr.resolveArgs, Expr.namesArgs, a.names_resolve, Expr.namesArgs_resolve as]

theorem Arg.names_resolve (a : Arg) : (a.resolve c).names = a.names.map (·.resolve c) := by
  cases a with
  | mk _ v => exact v.names_resolve

theorem Expr.namesArms_resolve (as : List Arm) :
    Expr.namesArms (Expr.resolveArms c as) = (Expr.namesArms as).map (·.resolve c) := by
  cases as with
  | nil => rfl
  | cons a as => simp [Expr.resolveArms, Expr.namesArms, a.names_resolve, Expr.namesArms_resolve as]

theorem Arm.names_resolve (a : Arm) : (a.resolve c).names = a.names.map (·.resolve c) := by
  cases a with
  | cases es b => simp [Arm.resolve, Arm.names, Expr.namesList_resolve es, b.names_resolve]
  | default b => exact b.names_resolve

theorem Member.names_resolve (m : Member) : (m.resolve c).names = m.names.map (·.resolve c) := by
  cases m with
  | ident => rfl
  | dynamic e => exact e.names_resolve

theorem ClassRef.names_resolve (r : ClassRef) :
    (r.resolve c).names = r.names.map (·.resolve c) := by
  cases r with
  | dynamic e => exact e.names_resolve
  | named | selfRef | staticRef | parentRef | anonymous => rfl

end

theorem flatMap_names_resolve {α : Type} {names : α → List NameUse} {resolve : α → α}
    (h : ∀ a, names (resolve a) = (names a).map (·.resolve c)) (as : List α) :
    (as.map resolve).flatMap names = (as.flatMap names).map (·.resolve c) := by
  rw [List.flatMap_map, List.map_flatMap]
  congr 1
  funext a
  exact h a

mutual

theorem Stmt.names_resolve (s : Stmt) : (s.resolve c).names = s.names.map (·.resolve c) := by
  cases s with
  | expr e | throwing _ e => exact e.names_resolve c
  | block b => exact b.names_resolve
  | returning _ v => exact Expr.namesOption_resolve c v
  | ifElse _ e y es n =>
    simp [Stmt.resolve, Stmt.names, e.names_resolve c, y.names_resolve,
      Stmt.namesElseIfs_resolve es, Stmt.namesOption_resolve n]
  | whileLoop _ e b => simp [Stmt.resolve, Stmt.names, e.names_resolve c, b.names_resolve]
  | doWhile _ b e => simp [Stmt.resolve, Stmt.names, b.names_resolve, e.names_resolve c]
  | forLoop _ i e n b =>
    simp [Stmt.resolve, Stmt.names, Expr.namesList_resolve c, b.names_resolve]
  | foreach _ e k v b =>
    simp [Stmt.resolve, Stmt.names, e.names_resolve c, Expr.namesOption_resolve c k,
      v.names_resolve c, b.names_resolve]
  | switch _ e cs =>
    simp [Stmt.resolve, Stmt.names, e.names_resolve c, Stmt.namesCases_resolve cs]
  | tryCatch _ b cs l =>
    simp [Stmt.resolve, Stmt.names, b.names_resolve, Stmt.namesCatches_resolve cs,
      Block.namesOption_resolve l]
  | echo _ es | unset _ es => exact Expr.namesList_resolve c es
  | staticVars _ vs =>
    exact flatMap_names_resolve c (fun v => Expr.namesOption_resolve c v.start) vs
  | globals | jump | declaration | nop => rfl

theorem Stmt.namesOption_resolve (s : Option Stmt) :
    Stmt.namesOption (Stmt.resolveOption c s) = (Stmt.namesOption s).map (·.resolve c) := by
  cases s with
  | none => rfl
  | some s => exact s.names_resolve

theorem Stmt.namesList_resolve (ss : List Stmt) :
    Stmt.namesList (Stmt.resolveList c ss) = (Stmt.namesList ss).map (·.resolve c) := by
  cases ss with
  | nil => rfl
  | cons s ss => simp [Stmt.resolveList, Stmt.namesList, s.names_resolve, Stmt.namesList_resolve ss]

theorem Stmt.namesElseIfs_resolve (es : List ElseIf) :
    Stmt.namesElseIfs (Stmt.resolveElseIfs c es) = (Stmt.namesElseIfs es).map (·.resolve c) := by
  cases es with
  | nil => rfl
  | cons e es =>
    simp [Stmt.resolveElseIfs, Stmt.namesElseIfs, e.names_resolve, Stmt.namesElseIfs_resolve es]

theorem ElseIf.names_resolve (e : ElseIf) : (e.resolve c).names = e.names.map (·.resolve c) := by
  cases e with
  | mk e b => simp [ElseIf.resolve, ElseIf.names, e.names_resolve c, b.names_resolve]

theorem Stmt.namesCases_resolve (ks : List Case) :
    Stmt.namesCases (Stmt.resolveCases c ks) = (Stmt.namesCases ks).map (·.resolve c) := by
  cases ks with
  | nil => rfl
  | cons k ks =>
    simp [Stmt.resolveCases, Stmt.namesCases, k.names_resolve, Stmt.namesCases_resolve ks]

theorem Case.names_resolve (k : Case) : (k.resolve c).names = k.names.map (·.resolve c) := by
  cases k with
  | mk l b =>
    simp [Case.resolve, Case.names, Expr.namesOption_resolve c l, Stmt.namesList_resolve b]

theorem Stmt.namesCatches_resolve (ks : List Catch) :
    Stmt.namesCatches (Stmt.resolveCatches c ks) = (Stmt.namesCatches ks).map (·.resolve c) := by
  cases ks with
  | nil => rfl
  | cons k ks =>
    simp [Stmt.resolveCatches, Stmt.namesCatches, k.names_resolve, Stmt.namesCatches_resolve ks]

theorem Catch.names_resolve (k : Catch) : (k.resolve c).names = k.names.map (·.resolve c) := by
  cases k with
  | mk _ ts _ b =>
    rw [Catch.resolve, Catch.names, Catch.names, List.map_append, NameUse.map_ofClass_resolve,
      b.names_resolve]

theorem Block.namesOption_resolve (b : Option Block) :
    Block.namesOption (Block.resolveOption c b) = (Block.namesOption b).map (·.resolve c) := by
  cases b with
  | none => rfl
  | some b => exact b.names_resolve

theorem Block.names_resolve (b : Block) : (b.resolve c).names = b.names.map (·.resolve c) := by
  cases b with
  | mk _ ss => exact Stmt.namesList_resolve ss

end

mutual

theorem Signature.hintNames_resolve (h : TypeHint) :
    hintNames (h.resolve c) = (hintNames h).map (·.resolve c) := by
  cases h with
  | named n => rfl
  | nullable h => exact hintNames_resolve h
  | union hs | intersection hs => exact hintNamesList_resolve hs

theorem Signature.hintNamesList_resolve (hs : List TypeHint) :
    hintNamesList (TypeHint.resolveList c hs) = (hintNamesList hs).map (·.resolve c) := by
  cases hs with
  | nil => rfl
  | cons h hs =>
    simp [TypeHint.resolveList, hintNamesList, hintNames_resolve h, hintNamesList_resolve hs]

end

theorem TypeHint.namesOption_resolve (h : Option TypeHint) :
    TypeHint.namesOption (h.map (·.resolve c)) = (TypeHint.namesOption h).map (·.resolve c) := by
  cases h with
  | none => rfl
  | some h =>
    change (Signature.hintNames (h.resolve c)).map _ = _
    rw [Signature.hintNames_resolve, NameUse.map_ofClass_resolve]
    rfl

theorem Param.names_resolve (p : Param) : (p.resolve c).names = p.names.map (·.resolve c) := by
  simp [Param.resolve, Param.names, TypeHint.namesOption_resolve, Expr.namesOption_resolve]

theorem MethodDecl.names_resolve (m : MethodDecl) :
    (m.resolve c).names = m.names.map (·.resolve c) := by
  have hparams := flatMap_names_resolve c (Param.names_resolve c) m.params
  simp [MethodDecl.resolve, MethodDecl.names, hparams, TypeHint.namesOption_resolve,
    Block.namesOption_resolve]

theorem TypeDecl.names_resolve (t : TypeDecl) :
    (t.resolve c).names = t.names.map (·.resolve c) := by
  have hmethods := flatMap_names_resolve c (MethodDecl.names_resolve c) t.methods
  dsimp only [TypeDecl.resolve, TypeDecl.names]
  rw [← List.map_append, ← List.map_append, NameUse.map_ofClass_resolve, hmethods,
    ← List.map_append]

end

/-- Every class among the nodes that is given by its name is among the names. -/
def Listed (vs : List Visit) (us : List NameUse) : Prop :=
  ∀ n, .classRef (.named n) ∈ vs → .ofClass n ∈ us

namespace Listed
variable {vs vs' : List Visit} {us us' : List NameUse} {v : Visit}

theorem nil : Listed [] us := by
  intro n hn
  cases hn

theorem append (h : Listed vs us) (h' : Listed vs' us') : Listed (vs ++ vs') (us ++ us') := by
  intro n hn
  rcases List.mem_append.mp hn with hn | hn
  · exact List.mem_append_left _ (h n hn)
  · exact List.mem_append_right _ (h' n hn)

theorem after (us : List NameUse) (h : Listed vs us') : Listed vs (us ++ us') :=
  nil.append h

/- A node that is no class. -/
theorem cons (h : Listed vs us) (hv : ∀ r, v ≠ .classRef r) : Listed (v :: vs) us := by
  intro n hn
  rcases List.mem_cons.mp hn with rfl | hn
  · exact absurd rfl (hv _)
  · exact h n hn

theorem flatMap {α : Type} {visits : α → List Visit} {names : α → List NameUse}
    (h : ∀ a, Listed (visits a) (names a)) (as : List α) :
    Listed (as.flatMap visits) (as.flatMap names) := by
  induction as with
  | nil => exact nil
  | cons a as ih =>
    rw [List.flatMap_cons, List.flatMap_cons]
    exact (h a).append ih

end Listed

mutual

theorem Expr.listed (e : Expr) : Listed (.expr e :: e.inner) e.names := by
  refine Listed.cons ?_ (by simp)
  cases e with
  | var | literal | name | closure => exact .nil
  | varVar _ e | unary _ _ e | cast _ _ e | word _ _ e | throwing _ e => exact e.listed
  | items _ _ is => exact Expr.listed_items is
  | new _ r as => exact r.listed.append (Expr.listed_args as)
  | methodCall _ t m as => exact (t.listed.append m.listed).append (Expr.listed_args as)
  | staticCall _ r m as => exact (r.listed.append m.listed).append (Expr.listed_args as)
  | call _ f as => exact f.listed.append (Expr.listed_args as)
  | property _ t m => exact t.listed.append m.listed
  | staticProperty _ r | classConst _ r => exact r.listed
  | index _ t i => exact t.listed.append (Expr.listed_option i)
  | assign _ _ a b | binary _ _ a b => exact a.listed.append b.listed
  | ternary _ b y n => exact (b.listed.append (Expr.listed_option y)).append n.listed
  | instanceOf _ e r => exact e.listed.append r.listed
  | isset _ es => exact Expr.listed_list es
  | yielding _ k v => exact (Expr.listed_option k).append (Expr.listed_option v)
  | matching _ e arms => exact e.listed.append (Expr.listed_arms arms)

theorem Expr.listed_option (e : Option Expr) :
    Listed (Expr.innerOption e) (Expr.namesOption e) := by
  cases e with
  | none => exact .nil
  | some e => exact e.listed

theorem Expr.listed_list (es : List Expr) : Listed (Expr.innerList es) (Expr.namesList es) := by
  cases es with
  | nil => exact .nil
  | cons e es => exact e.listed.append (Expr.listed_list es)

theorem Expr.listed_items (is : List Item) : Listed (Expr.innerItems is) (Expr.namesItems is) := by
  cases is with
  | nil => exact .nil
  | cons i is => exact i.listed.append (Expr.listed_items is)

theorem Item.listed (i : Item) : Listed i.inner i.names := by
  cases i with
  | mk k v => exact (Expr.listed_option k).append v.listed

theorem Expr.listed_args (as : List Arg) : Listed (Expr.innerArgs as) (Expr.namesArgs as) := by
  cases as with
  | nil => exact .nil
  | cons a as => exact a.listed.append (Expr.listed_args as)

theorem Arg.listed (a : Arg) : Listed a.inner a.names := by
  cases a with
  | mk _ v => exact v.listed

theorem Expr.listed_arms (as : List Arm) : Listed (Expr.innerArms as) (Expr.namesArms as) := by
  cases as with
  | nil => exact .nil
  | cons a as => exact a.listed.append (Expr.listed_arms as)

theorem Arm.listed (a : Arm) : Listed a.inner a.names := by
  cases a with
  | cases es b => exact (Expr.listed_list es).append b.listed
  | default b => exact b.listed

theorem Member.listed (m : Member) : Listed m.inner m.names := by
  cases m with
  | ident => exact .nil
  | dynamic e => exact e.listed

theorem ClassRef.listed (r : ClassRef) : Listed (.classRef r :: r.inner) r.names := by
  cases r with
  | named n =>
    intro n' hn'
    have heq : n' = n := by simpa [ClassRef.inner] using hn'
    rw [heq]
    exact List.mem_singleton_self _
  | dynamic e =>
    intro n hn
    exact e.listed n (by simpa [ClassRef.inner] using hn)
  | selfRef | staticRef | parentRef | anonymous =>
    intro n hn
    simp [ClassRef.inner] at hn

end

mutual

theorem Stmt.listed (s : Stmt) : Listed (.stmt s :: s.inner) s.names := by
  refine Listed.cons ?_ (by simp)
  cases s with
  | expr e | throwing _ e => exact e.listed
  | block b => exact b.listed
  | returning _ v => exact Expr.listed_option v
  | ifElse _ e y es n =>
    exact e.listed.append ((y.listed.append (Stmt.listed_elseIfs es)).append (Stmt.listed_option n))
  | whileLoop _ e b => exact e.listed.append b.listed
  | doWhile _ b e => exact b.listed.append e.listed
  | forLoop _ i e n b =>
    exact (((Expr.listed_list i).append (Expr.listed_list e)).append (Expr.listed_list n)).append
      b.listed
  | foreach _ e k v b =>
    exact (e.listed.append (Expr.listed_option k)).append (v.listed.append b.listed)
  | switch _ e cs => exact e.listed.append (Stmt.listed_cases cs)
  | tryCatch _ b cs l =>
    exact (b.listed.append (Stmt.listed_catches cs)).append (Block.listed_option l)
  | echo _ es | unset _ es => exact Expr.listed_list es
  | staticVars _ vs => exact Listed.flatMap (fun v => Expr.listed_option v.start) vs
  | globals | jump | declaration | nop => exact .nil

theorem Stmt.listed_option (s : Option Stmt) :
    Listed (Stmt.innerOption s) (Stmt.namesOption s) := by
  cases s with
  | none => exact .nil
  | some s => exact s.listed

theorem Stmt.listed_list (ss : List Stmt) : Listed (Stmt.innerList ss) (Stmt.namesList ss) := by
  cases ss with
  | nil => exact .nil
  | cons s ss => exact s.listed.append (Stmt.listed_list ss)

theorem Stmt.listed_elseIfs (es : List ElseIf) :
    Listed (Stmt.innerElseIfs es) (Stmt.namesElseIfs es) := by
  cases es with
  | nil => exact .nil
  | cons e es => exact e.listed.append (Stmt.listed_elseIfs es)

theorem ElseIf.listed (e : ElseIf) : Listed e.inner e.names := by
  cases e with
  | mk e b => exact e.listed.append b.listed

theorem Stmt.listed_cases (ks : List Case) : Listed (Stmt.innerCases ks) (Stmt.namesCases ks) := by
  cases ks with
  | nil => exact .nil
  | cons k ks => exact k.listed.append (Stmt.listed_cases ks)

theorem Case.listed (k : Case) : Listed k.inner k.names := by
  cases k with
  | mk l b => exact (Expr.listed_option l).append (Stmt.listed_list b)

theorem Stmt.listed_catches (ks : List Catch) :
    Listed (Stmt.innerCatches ks) (Stmt.namesCatches ks) := by
  cases ks with
  | nil => exact .nil
  | cons k ks => exact (k.listed.append (Stmt.listed_catches ks)).cons (by simp)

theorem Catch.listed (k : Catch) : Listed k.inner k.names := by
  cases k with
  | mk _ ts _ b =>
    -- the walk does not come to the types of a catch
    exact b.listed.after (ts.map .ofClass)

theorem Block.listed_option (b : Option Block) :
    Listed (Block.innerOption b) (Block.namesOption b) := by
  cases b with
  | none => exact .nil
  | some b => exact b.listed

theorem Block.listed (b : Block) : Listed (.block b :: b.inner) b.names := by
  refine Listed.cons ?_ (by simp)
  cases b with
  | mk _ ss => exact Stmt.listed_list ss

end

theorem MethodDecl.listed (m : MethodDecl) : Listed (.method m :: m.inner) m.names := by
  have hparams : Listed (m.params.flatMap fun p => Expr.innerOption p.default)
      (m.params.flatMap (·.names)) :=
    Listed.flatMap (fun p => (Expr.listed_option p.default).after _) m.params
  rw [MethodDecl.names, List.append_assoc]
  exact (hparams.append ((Block.listed_option m.body).after _)).cons (by simp)

theorem TypeDecl.listed (t : TypeDecl) : Listed (.type t :: t.inner) t.names :=
  ((Listed.flatMap MethodDecl.listed t.methods).after _).cons (by simp)

/-- A class that the walk comes to by its name is named in a declaration. -/
theorem Program.exists_names_of_walk {p : Program} {n : Name}
    (h : .classRef (.named n) ∈ p.walk) :
    ∃ b ∈ p.blocks, ∃ t ∈ b.types, .ofClass n ∈ t.names := by
  obtain ⟨t, ht, hn⟩ := List.mem_flatMap.mp h
  obtain ⟨b, hb, ht⟩ := List.mem_flatMap.mp ht
  exact ⟨b, hb, t, ht, t.listed n hn⟩

end ContractAudit
