import ContractAudit.Proofs.PlainFiles

/-! Trees whose names are resolved. Main statement: after a tree that was read is resolved, each
name in place of a class has the full name that its block gives it, no other name has one, and
nothing else in the tree has changed. -/
namespace ContractAudit

def Name.erase (n : Name) : Name := { n with resolved := none }

mutual

def TypeHint.erase : TypeHint → TypeHint
  | .named n => .named n.erase
  | .nullable h => .nullable h.erase
  | .union hs => .union (TypeHint.eraseList hs)
  | .intersection hs => .intersection (TypeHint.eraseList hs)

def TypeHint.eraseList : List TypeHint → List TypeHint
  | [] => []
  | h :: hs => h.erase :: TypeHint.eraseList hs

end

mutual

def Expr.erase : Expr → Expr
  | .var s x => .var s x
  | .varVar s e => .varVar s e.erase
  | .literal s l => .literal s l
  | .name n => .name n.erase
  | .items s f is => .items s f (Expr.eraseItems is)
  | .new s r as => .new s r.erase (Expr.eraseArgs as)
  | .methodCall s t m as f o => .methodCall s t.erase m.erase (Expr.eraseArgs as) f o
  | .staticCall s r m as f => .staticCall s r.erase m.erase (Expr.eraseArgs as) f
  | .call s f as => .call s f.erase (Expr.eraseArgs as)
  | .property s t m o => .property s t.erase m.erase o
  | .staticProperty s r x => .staticProperty s r.erase x
  | .classConst s r x => .classConst s r.erase x
  | .index s t i => .index s t.erase (Expr.eraseOption i)
  | .assign s op a b => .assign s op a.erase b.erase
  | .binary s op a b => .binary s op a.erase b.erase
  | .unary s op e => .unary s op e.erase
  | .ternary s b y n => .ternary s b.erase (Expr.eraseOption y) n.erase
  | .instanceOf s e r => .instanceOf s e.erase r.erase
  | .cast s t e => .cast s t e.erase
  | .isset s es => .isset s (Expr.eraseList es)
  | .word s op e => .word s op e.erase
  | .throwing s e => .throwing s e.erase
  | .yielding s k v f => .yielding s (Expr.eraseOption k) (Expr.eraseOption v) f
  | .matching s e arms => .matching s e.erase (Expr.eraseArms arms)
  | .closure s => .closure s

def Expr.eraseOption : Option Expr → Option Expr
  | none => none
  | some e => some e.erase

def Expr.eraseList : List Expr → List Expr
  | [] => []
  | e :: es => e.erase :: Expr.eraseList es

def Expr.eraseItems : List Item → List Item
  | [] => []
  | i :: is => i.erase :: Expr.eraseItems is

def Item.erase : Item → Item
  | ⟨k, v, r, s⟩ => ⟨Expr.eraseOption k, v.erase, r, s⟩

def Expr.eraseArgs : List Arg → List Arg
  | [] => []
  | a :: as => a.erase :: Expr.eraseArgs as

def Arg.erase : Arg → Arg
  | ⟨n, v, s⟩ => ⟨n, v.erase, s⟩

def Expr.eraseArms : List Arm → List Arm
  | [] => []
  | a :: as => a.erase :: Expr.eraseArms as

def Arm.erase : Arm → Arm
  | .cases es b => .cases (Expr.eraseList es) b.erase
  | .default b => .default b.erase

def Member.erase : Member → Member
  | .ident x => .ident x
  | .dynamic e => .dynamic e.erase

def ClassRef.erase : ClassRef → ClassRef
  | .named n => .named n.erase
  | .selfRef s => .selfRef s
  | .staticRef s => .staticRef s
  | .parentRef s => .parentRef s
  | .dynamic e => .dynamic e.erase
  | .anonymous s => .anonymous s

end

def StaticVar.erase (v : StaticVar) : StaticVar := ⟨v.name, Expr.eraseOption v.start⟩

mutual

def Stmt.erase : Stmt → Stmt
  | .expr e => .expr e.erase
  | .block b => .block b.erase
  | .returning s v => .returning s (Expr.eraseOption v)
  | .throwing s v => .throwing s v.erase
  | .ifElse s e y es n => .ifElse s e.erase y.erase (Stmt.eraseElseIfs es) (Stmt.eraseOption n)
  | .whileLoop s e b => .whileLoop s e.erase b.erase
  | .doWhile s b e => .doWhile s b.erase e.erase
  | .forLoop s i e n b =>
    .forLoop s (Expr.eraseList i) (Expr.eraseList e) (Expr.eraseList n) b.erase
  | .foreach s e k v b => .foreach s e.erase (Expr.eraseOption k) v.erase b.erase
  | .switch s e cs => .switch s e.erase (Stmt.eraseCases cs)
  | .tryCatch s b cs l => .tryCatch s b.erase (Stmt.eraseCatches cs) (Block.eraseOption l)
  | .echo s es => .echo s (Expr.eraseList es)
  | .unset s es => .unset s (Expr.eraseList es)
  | .globals s xs => .globals s xs
  | .staticVars s vs => .staticVars s (vs.map (·.erase))
  | .jump s j => .jump s j
  | .declaration s => .declaration s
  | .nop s => .nop s

def Stmt.eraseOption : Option Stmt → Option Stmt
  | none => none
  | some s => some s.erase

def Stmt.eraseList : List Stmt → List Stmt
  | [] => []
  | s :: ss => s.erase :: Stmt.eraseList ss

def Stmt.eraseElseIfs : List ElseIf → List ElseIf
  | [] => []
  | e :: es => e.erase :: Stmt.eraseElseIfs es

def ElseIf.erase : ElseIf → ElseIf
  | ⟨e, b⟩ => ⟨e.erase, b.erase⟩

def Stmt.eraseCases : List Case → List Case
  | [] => []
  | k :: ks => k.erase :: Stmt.eraseCases ks

def Case.erase : Case → Case
  | ⟨l, b⟩ => ⟨Expr.eraseOption l, Stmt.eraseList b⟩

def Stmt.eraseCatches : List Catch → List Catch
  | [] => []
  | k :: ks => k.erase :: Stmt.eraseCatches ks

def Catch.erase : Catch → Catch
  | ⟨s, ts, v, b⟩ => ⟨s, ts.map (·.erase), v, b.erase⟩

def Block.eraseOption : Option Block → Option Block
  | none => none
  | some b => some b.erase

def Block.erase : Block → Block
  | ⟨s, ss⟩ => ⟨s, Stmt.eraseList ss⟩

end

def Param.erase (p : Param) : Param :=
  { p with hint := p.hint.map (·.erase), default := Expr.eraseOption p.default }

def MethodDecl.erase (m : MethodDecl) : MethodDecl :=
  { m with
    params := m.params.map (·.erase)
    returnType := m.returnType.map (·.erase)
    body := Block.eraseOption m.body }

def TypeDecl.erase (t : TypeDecl) : TypeDecl :=
  { t with
    fullName := t.name
    parents := t.parents.map (·.erase)
    interfaces := t.interfaces.map (·.erase)
    traits := t.traits.map (·.erase)
    methods := t.methods.map (·.erase) }

def NamespaceBlock.erase (b : NamespaceBlock) : NamespaceBlock :=
  { b with types := b.types.map (·.erase) }

/-- The tree without any full name, as one that is not resolved. -/
def Program.erase (p : Program) : Program :=
  { p with blocks := p.blocks.map (·.erase), namesResolved := false }

section
variable (c : NameContext)

theorem Name.erase_of_plain {n : Name} (h : n.resolved = none) : n.erase = n := by
  cases n
  cases h
  rfl

theorem map_erase_resolve {α : Type} {resolve erase : α → α} {as : List α}
    (h : ∀ a ∈ as, erase (resolve a) = a) : (as.map resolve).map erase = as := by
  rw [List.map_map]
  exact (List.map_congr_left h).trans (List.map_id as)

theorem names_erase_resolve {ns : List Name} (h : ∀ n ∈ ns, n.resolved = none) :
    (ns.map (·.resolve c)).map (·.erase) = ns :=
  map_erase_resolve fun n hn => Name.erase_of_plain (h n hn)

mutual

theorem Expr.erase_resolve (e : Expr) (h : Plain e.names) : (e.resolve c).erase = e := by
  cases e with
  | var | literal | closure => rfl
  | name n => rw [Expr.resolve, Expr.erase, Name.erase_of_plain (plain_bare.mp h)]
  | varVar _ e | unary _ _ e | cast _ _ e | word _ _ e | throwing _ e =>
    rw [Expr.resolve, Expr.erase, e.erase_resolve h]
  | items _ _ is => rw [Expr.resolve, Expr.erase, Expr.eraseItems_resolve is h]
  | new _ r as =>
    obtain ⟨hr, has⟩ := plain_append.mp h
    rw [Expr.resolve, Expr.erase, r.erase_resolve hr, Expr.eraseArgs_resolve as has]
  | methodCall _ t m as =>
    obtain ⟨htm, has⟩ := plain_append.mp h
    obtain ⟨ht, hm⟩ := plain_append.mp htm
    rw [Expr.resolve, Expr.erase, t.erase_resolve ht, m.erase_resolve hm,
      Expr.eraseArgs_resolve as has]
  | staticCall _ r m as =>
    obtain ⟨hrm, has⟩ := plain_append.mp h
    obtain ⟨hr, hm⟩ := plain_append.mp hrm
    rw [Expr.resolve, Expr.erase, r.erase_resolve hr, m.erase_resolve hm,
      Expr.eraseArgs_resolve as has]
  | call _ f as =>
    obtain ⟨hf, has⟩ := plain_append.mp h
    rw [Expr.resolve, Expr.erase, f.erase_resolve hf, Expr.eraseArgs_resolve as has]
  | property _ t m =>
    obtain ⟨ht, hm⟩ := plain_append.mp h
    rw [Expr.resolve, Expr.erase, t.erase_resolve ht, m.erase_resolve hm]
  | staticProperty _ r | classConst _ r => rw [Expr.resolve, Expr.erase, r.erase_resolve h]
  | index _ t i =>
    obtain ⟨ht, hi⟩ := plain_append.mp h
    rw [Expr.resolve, Expr.erase, t.erase_resolve ht, Expr.eraseOption_resolve i hi]
  | assign _ _ a b | binary _ _ a b =>
    obtain ⟨ha, hb⟩ := plain_append.mp h
    rw [Expr.resolve, Expr.erase, a.erase_resolve ha, b.erase_resolve hb]
  | ternary _ b y n =>
    obtain ⟨hby, hn⟩ := plain_append.mp h
    obtain ⟨hb, hy⟩ := plain_append.mp hby
    rw [Expr.resolve, Expr.erase, b.erase_resolve hb, Expr.eraseOption_resolve y hy,
      n.erase_resolve hn]
  | instanceOf _ e r =>
    obtain ⟨he, hr⟩ := plain_append.mp h
    rw [Expr.resolve, Expr.erase, e.erase_resolve he, r.erase_resolve hr]
  | isset _ es => rw [Expr.resolve, Expr.erase, Expr.eraseList_resolve es h]
  | yielding _ k v =>
    obtain ⟨hk, hv⟩ := plain_append.mp h
    rw [Expr.resolve, Expr.erase, Expr.eraseOption_resolve k hk, Expr.eraseOption_resolve v hv]
  | matching _ e arms =>
    obtain ⟨he, harms⟩ := plain_append.mp h
    rw [Expr.resolve, Expr.erase, e.erase_resolve he, Expr.eraseArms_resolve arms harms]

theorem Expr.eraseOption_resolve (e : Option Expr) (h : Plain (Expr.namesOption e)) :
    Expr.eraseOption (Expr.resolveOption c e) = e := by
  cases e with
  | none => rfl
  | some e => rw [Expr.resolveOption, Expr.eraseOption, e.erase_resolve h]

theorem Expr.eraseList_resolve (es : List Expr) (h : Plain (Expr.namesList es)) :
    Expr.eraseList (Expr.resolveList c es) = es := by
  cases es with
  | nil => rfl
  | cons e es =>
    obtain ⟨he, hes⟩ := plain_append.mp h
    rw [Expr.resolveList, Expr.eraseList, e.erase_resolve he, Expr.eraseList_resolve es hes]

theorem Expr.eraseItems_resolve (is : List Item) (h : Plain (Expr.namesItems is)) :
    Expr.eraseItems (Expr.resolveItems c is) = is := by
  cases is with
  | nil => rfl
  | cons i is =>
    obtain ⟨hi, his⟩ := plain_append.mp h
    rw [Expr.resolveItems, Expr.eraseItems, i.erase_resolve hi, Expr.eraseItems_resolve is his]

theorem Item.erase_resolve (i : Item) (h : Plain i.names) : (i.resolve c).erase = i := by
  cases i with
  | mk k v =>
    obtain ⟨hk, hv⟩ := plain_append.mp h
    rw [Item.resolve, Item.erase, Expr.eraseOption_resolve k hk, v.erase_resolve hv]

theorem Expr.eraseArgs_resolve (as : List Arg) (h : Plain (Expr.namesArgs as)) :
    Expr.eraseArgs (Expr.resolveArgs c as) = as := by
  cases as with
  | nil => rfl
  | cons a as =>
    obtain ⟨ha, has⟩ := plain_append.mp h
    rw [Expr.resolveArgs, Expr.eraseArgs, a.erase_resolve ha, Expr.eraseArgs_resolve as has]

theorem Arg.erase_resolve (a : Arg) (h : Plain a.names) : (a.resolve c).erase = a := by
  cases a with
  | mk _ v => rw [Arg.resolve, Arg.erase, v.erase_resolve h]

theorem Expr.eraseArms_resolve (as : List Arm) (h : Plain (Expr.namesArms as)) :
    Expr.eraseArms (Expr.resolveArms c as) = as := by
  cases as with
  | nil => rfl
  | cons a as =>
    obtain ⟨ha, has⟩ := plain_append.mp h
    rw [Expr.resolveArms, Expr.eraseArms, a.erase_resolve ha, Expr.eraseArms_resolve as has]

theorem Arm.erase_resolve (a : Arm) (h : Plain a.names) : (a.resolve c).erase = a := by
  cases a with
  | cases es b =>
    obtain ⟨hes, hb⟩ := plain_append.mp h
    rw [Arm.resolve, Arm.erase, Expr.eraseList_resolve es hes, b.erase_resolve hb]
  | default b => rw [Arm.resolve, Arm.erase, b.erase_resolve h]

theorem Member.erase_resolve (m : Member) (h : Plain m.names) : (m.resolve c).erase = m := by
  cases m with
  | ident => rfl
  | dynamic e => rw [Member.resolve, Member.erase, e.erase_resolve h]

theorem ClassRef.erase_resolve (r : ClassRef) (h : Plain r.names) : (r.resolve c).erase = r := by
  cases r with
  | named n => exact congrArg ClassRef.named (Name.erase_of_plain (h _ (List.mem_singleton_self _)))
  | dynamic e => rw [ClassRef.resolve, ClassRef.erase, e.erase_resolve h]
  | selfRef | staticRef | parentRef | anonymous => rfl

end

theorem StaticVar.erase_resolve (v : StaticVar) (h : Plain v.names) : (v.resolve c).erase = v := by
  rw [StaticVar.resolve, StaticVar.erase, Expr.eraseOption_resolve c v.start h]

mutual

theorem Stmt.erase_resolve (s : Stmt) (h : Plain s.names) : (s.resolve c).erase = s := by
  cases s with
  | expr e | throwing _ e => rw [Stmt.resolve, Stmt.erase, e.erase_resolve c h]
  | block b => rw [Stmt.resolve, Stmt.erase, b.erase_resolve h]
  | returning _ v => rw [Stmt.resolve, Stmt.erase, Expr.eraseOption_resolve c v h]
  | ifElse _ e y es n =>
    obtain ⟨he, hrest⟩ := plain_append.mp h
    obtain ⟨hyes, hn⟩ := plain_append.mp hrest
    obtain ⟨hy, hes⟩ := plain_append.mp hyes
    rw [Stmt.resolve, Stmt.erase, e.erase_resolve c he, y.erase_resolve hy,
      Stmt.eraseElseIfs_resolve es hes, Stmt.eraseOption_resolve n hn]
  | whileLoop _ e b =>
    obtain ⟨he, hb⟩ := plain_append.mp h
    rw [Stmt.resolve, Stmt.erase, e.erase_resolve c he, b.erase_resolve hb]
  | doWhile _ b e =>
    obtain ⟨hb, he⟩ := plain_append.mp h
    rw [Stmt.resolve, Stmt.erase, e.erase_resolve c he, b.erase_resolve hb]
  | forLoop _ i e n b =>
    obtain ⟨hien, hb⟩ := plain_append.mp h
    obtain ⟨hie, hn⟩ := plain_append.mp hien
    obtain ⟨hi, he⟩ := plain_append.mp hie
    rw [Stmt.resolve, Stmt.erase, Expr.eraseList_resolve c i hi, Expr.eraseList_resolve c e he,
      Expr.eraseList_resolve c n hn, b.erase_resolve hb]
  | foreach _ e k v b =>
    obtain ⟨hek, hvb⟩ := plain_append.mp h
    obtain ⟨he, hk⟩ := plain_append.mp hek
    obtain ⟨hv, hb⟩ := plain_append.mp hvb
    rw [Stmt.resolve, Stmt.erase, e.erase_resolve c he, Expr.eraseOption_resolve c k hk,
      v.erase_resolve c hv, b.erase_resolve hb]
  | switch _ e cs =>
    obtain ⟨he, hcs⟩ := plain_append.mp h
    rw [Stmt.resolve, Stmt.erase, e.erase_resolve c he, Stmt.eraseCases_resolve cs hcs]
  | tryCatch _ b cs l =>
    obtain ⟨hbcs, hl⟩ := plain_append.mp h
    obtain ⟨hb, hcs⟩ := plain_append.mp hbcs
    rw [Stmt.resolve, Stmt.erase, b.erase_resolve hb, Stmt.eraseCatches_resolve cs hcs,
      Block.eraseOption_resolve l hl]
  | echo _ es | unset _ es => rw [Stmt.resolve, Stmt.erase, Expr.eraseList_resolve c es h]
  | staticVars _ vs =>
    rw [Stmt.resolve, Stmt.erase, map_erase_resolve fun v hv =>
      StaticVar.erase_resolve c v (plain_flatMap.mp h v hv)]
  | globals | jump | declaration | nop => rfl

theorem Stmt.eraseOption_resolve (s : Option Stmt) (h : Plain (Stmt.namesOption s)) :
    Stmt.eraseOption (Stmt.resolveOption c s) = s := by
  cases s with
  | none => rfl
  | some s => rw [Stmt.resolveOption, Stmt.eraseOption, s.erase_resolve h]

theorem Stmt.eraseList_resolve (ss : List Stmt) (h : Plain (Stmt.namesList ss)) :
    Stmt.eraseList (Stmt.resolveList c ss) = ss := by
  cases ss with
  | nil => rfl
  | cons s ss =>
    obtain ⟨hs, hss⟩ := plain_append.mp h
    rw [Stmt.resolveList, Stmt.eraseList, s.erase_resolve hs, Stmt.eraseList_resolve ss hss]

theorem Stmt.eraseElseIfs_resolve (es : List ElseIf) (h : Plain (Stmt.namesElseIfs es)) :
    Stmt.eraseElseIfs (Stmt.resolveElseIfs c es) = es := by
  cases es with
  | nil => rfl
  | cons e es =>
    obtain ⟨he, hes⟩ := plain_append.mp h
    rw [Stmt.resolveElseIfs, Stmt.eraseElseIfs, e.erase_resolve he,
      Stmt.eraseElseIfs_resolve es hes]

theorem ElseIf.erase_resolve (e : ElseIf) (h : Plain e.names) : (e.resolve c).erase = e := by
  cases e with
  | mk e b =>
    obtain ⟨he, hb⟩ := plain_append.mp h
    rw [ElseIf.resolve, ElseIf.erase, e.erase_resolve c he, b.erase_resolve hb]

theorem Stmt.eraseCases_resolve (ks : List Case) (h : Plain (Stmt.namesCases ks)) :
    Stmt.eraseCases (Stmt.resolveCases c ks) = ks := by
  cases ks with
  | nil => rfl
  | cons k ks =>
    obtain ⟨hk, hks⟩ := plain_append.mp h
    rw [Stmt.resolveCases, Stmt.eraseCases, k.erase_resolve hk, Stmt.eraseCases_resolve ks hks]

theorem Case.erase_resolve (k : Case) (h : Plain k.names) : (k.resolve c).erase = k := by
  cases k with
  | mk l b =>
    obtain ⟨hl, hb⟩ := plain_append.mp h
    rw [Case.resolve, Case.erase, Expr.eraseOption_resolve c l hl, Stmt.eraseList_resolve b hb]

theorem Stmt.eraseCatches_resolve (ks : List Catch) (h : Plain (Stmt.namesCatches ks)) :
    Stmt.eraseCatches (Stmt.resolveCatches c ks) = ks := by
  cases ks with
  | nil => rfl
  | cons k ks =>
    obtain ⟨hk, hks⟩ := plain_append.mp h
    rw [Stmt.resolveCatches, Stmt.eraseCatches, k.erase_resolve hk,
      Stmt.eraseCatches_resolve ks hks]

theorem Catch.erase_resolve (k : Catch) (h : Plain k.names) : (k.resolve c).erase = k := by
  cases k with
  | mk _ ts _ b =>
    obtain ⟨hts, hb⟩ := plain_append.mp h
    rw [Catch.resolve, Catch.erase, names_erase_resolve c (plain_map_ofClass.mp hts),
      b.erase_resolve hb]

theorem Block.eraseOption_resolve (b : Option Block) (h : Plain (Block.namesOption b)) :
    Block.eraseOption (Block.resolveOption c b) = b := by
  cases b with
  | none => rfl
  | some b => rw [Block.resolveOption, Block.eraseOption, b.erase_resolve h]

theorem Block.erase_resolve (b : Block) (h : Plain b.names) : (b.resolve c).erase = b := by
  cases b with
  | mk _ ss => rw [Block.resolve, Block.erase, Stmt.eraseList_resolve ss h]

end

mutual

theorem TypeHint.erase_resolve (t : TypeHint)
    (h : ∀ n ∈ Signature.hintNames t, n.resolved = none) : (t.resolve c).erase = t := by
  cases t with
  | named n =>
    exact congrArg TypeHint.named (Name.erase_of_plain (h n (List.mem_singleton_self n)))
  | nullable t => rw [TypeHint.resolve, TypeHint.erase, t.erase_resolve h]
  | union ts | intersection ts =>
    rw [TypeHint.resolve, TypeHint.erase, TypeHint.eraseList_resolve ts h]

theorem TypeHint.eraseList_resolve (ts : List TypeHint)
    (h : ∀ n ∈ Signature.hintNamesList ts, n.resolved = none) :
    TypeHint.eraseList (TypeHint.resolveList c ts) = ts := by
  cases ts with
  | nil => rfl
  | cons t ts =>
    obtain ⟨ht, hts⟩ := List.forall_mem_append.mp h
    rw [TypeHint.resolveList, TypeHint.eraseList, t.erase_resolve ht,
      TypeHint.eraseList_resolve ts hts]

end

theorem TypeHint.eraseOption_resolve (t : Option TypeHint) (h : Plain (TypeHint.namesOption t)) :
    (t.map (·.resolve c)).map (·.erase) = t := by
  cases t with
  | none => rfl
  | some t => exact congrArg some (t.erase_resolve c (plain_map_ofClass.mp h))

theorem Param.erase_resolve (p : Param) (h : Plain p.names) : (p.resolve c).erase = p := by
  obtain ⟨hhint, hdefault⟩ := plain_append.mp h
  simp [Param.resolve, Param.erase, TypeHint.eraseOption_resolve c p.hint hhint,
    Expr.eraseOption_resolve c p.default hdefault]

theorem MethodDecl.erase_resolve (m : MethodDecl) (h : Plain m.names) :
    (m.resolve c).erase = m := by
  obtain ⟨hhead, hbody⟩ := plain_append.mp h
  obtain ⟨hparams, htype⟩ := plain_append.mp hhead
  have hparams' : (m.params.map (·.resolve c)).map (·.erase) = m.params :=
    map_erase_resolve fun p hp => p.erase_resolve c (plain_flatMap.mp hparams p hp)
  dsimp only [MethodDecl.resolve, MethodDecl.erase]
  rw [hparams', TypeHint.eraseOption_resolve c m.returnType htype,
    Block.eraseOption_resolve c m.body hbody]

theorem TypeDecl.erase_resolve (t : TypeDecl) (h : t.AsWritten) : (t.resolve c).erase = t := by
  obtain ⟨hhead, hmethods⟩ := plain_append.mp h.plain
  obtain ⟨hpi, htraits⟩ := List.forall_mem_append.mp (plain_map_ofClass.mp hhead)
  obtain ⟨hparents, hinterfaces⟩ := List.forall_mem_append.mp hpi
  have hmethods' : (t.methods.map (·.resolve c)).map (·.erase) = t.methods :=
    map_erase_resolve fun m hm => m.erase_resolve c (plain_flatMap.mp hmethods m hm)
  dsimp only [TypeDecl.resolve, TypeDecl.erase]
  rw [names_erase_resolve c hparents, names_erase_resolve c hinterfaces,
    names_erase_resolve c htraits, hmethods']
  exact congrArg (fun name => { t with fullName := name }) h.fullName.symm

end

namespace Program
variable {p : Program}

theorem resolve_of_asWritten (h : p.AsWritten) :
    p.resolve = { p with blocks := p.blocks.map (·.resolve), namesResolved := true } := by
  rw [Program.resolve, h.namesResolved, if_neg Bool.false_ne_true]

theorem erase_resolve (h : p.AsWritten) : p.resolve.erase = p := by
  have hblocks : ∀ b ∈ p.blocks, b.resolve.erase = b := by
    intro b hb
    dsimp only [NamespaceBlock.resolve, NamespaceBlock.erase]
    rw [map_erase_resolve fun t ht => t.erase_resolve _ (h.blocks b hb t ht)]
  rw [resolve_of_asWritten h]
  dsimp only [Program.erase]
  rw [map_erase_resolve hblocks]
  exact congrArg (fun flag => { p with namesResolved := flag }) h.namesResolved.symm

/- The types of a resolved tree are those that were read, each resolved in its block. -/
theorem exists_type_of_resolve (h : p.AsWritten) {b : NamespaceBlock} (hb : b ∈ p.resolve.blocks)
    {t : TypeDecl} (ht : t ∈ b.types) :
    ∃ t' : TypeDecl, t'.AsWritten ∧ t = t'.resolve (NameContext.ofBlock b) := by
  rw [resolve_of_asWritten h] at hb
  obtain ⟨b', hb', rfl⟩ := List.mem_map.mp hb
  obtain ⟨t', ht', rfl⟩ := List.mem_map.mp ht
  exact ⟨t', h.blocks b' hb' t' ht', rfl⟩

end Program

/- A name in a resolved tree is one that was read, resolved as its place asks. -/
theorem NameUse.resolved_of_mem {us : List NameUse} (h : Plain us) {c : NameContext} {n : Name} :
    (.ofClass n ∈ us.map (·.resolve c) → n.resolved = some (c.resolve n.raw)) ∧
    (.bare n ∈ us.map (·.resolve c) → n.resolved = none) := by
  constructor
  · intro hn
    obtain ⟨u, _, hu⟩ := List.mem_map.mp hn
    cases u with
    | ofClass m =>
      cases hu
      rfl
    | bare m => cases hu
  · intro hn
    obtain ⟨u, hmem, hu⟩ := List.mem_map.mp hn
    cases u with
    | ofClass m => cases hu
    | bare m =>
      cases hu
      exact h _ hmem

/-- A tree that was read is resolved. Then every type has the name that its block gives it; every
name in place of a class has the full name that its block gives it; no other name has one; without
the full names it is the tree that was read; and so every class that the walk comes to by its name
is resolved. -/
theorem Program.resolve_reaches_class_names {ts : List Token} {p : Program}
    (h : Program.ofTokens ts = .ok p) :
    (∀ b ∈ p.resolve.blocks, ∀ t ∈ b.types,
      t.fullName = (NameContext.ofBlock b).qualify t.name ∧
      (∀ n, .ofClass n ∈ t.names → n.resolved = some ((NameContext.ofBlock b).resolve n.raw)) ∧
      ∀ n, .bare n ∈ t.names → n.resolved = none) ∧
    p.resolve.erase = p ∧
    ∀ n, .classRef (.named n) ∈ p.resolve.walk →
      ∃ b ∈ p.resolve.blocks, n.resolved = some ((NameContext.ofBlock b).resolve n.raw) := by
  have hp := Program.ofTokens_asWritten h
  have htypes : ∀ b ∈ p.resolve.blocks, ∀ t ∈ b.types,
      t.fullName = (NameContext.ofBlock b).qualify t.name ∧
      (∀ n, .ofClass n ∈ t.names → n.resolved = some ((NameContext.ofBlock b).resolve n.raw)) ∧
      ∀ n, .bare n ∈ t.names → n.resolved = none := by
    intro b hb t ht
    obtain ⟨t', ht', rfl⟩ := Program.exists_type_of_resolve hp hb ht
    rw [TypeDecl.names_resolve]
    exact ⟨rfl, fun n => (NameUse.resolved_of_mem ht'.plain).1,
      fun n => (NameUse.resolved_of_mem ht'.plain).2⟩
  refine ⟨htypes, Program.erase_resolve hp, ?_⟩
  intro n hn
  obtain ⟨b, hb, t, ht, hmem⟩ := Program.exists_names_of_walk hn
  exact ⟨b, hb, (htypes b hb t ht).2.1 n hmem⟩

namespace Sample

/-- A class in a namespace with an import, whose method has class names in most places. -/
def spaced : List Token :=
  let head := "<?php namespace App; use Lib\\Base; class A extends Base implements I "
  let body :=
    "{ use T; function f(?J $x = LIMIT): int { try { new K(); } catch (E $e) { return Q::C; } } }"
  (Token.ofSource (head ++ body)).toOption.getD []

end Sample

theorem Program.resolve_reaches_class_names_sample :
    ∃ p, Program.ofTokens Sample.spaced = .ok p ∧ p.resolve.erase = p ∧
      (∀ b ∈ p.resolve.blocks, ∀ t ∈ b.types, ∀ n, .ofClass n ∈ t.names →
        n.resolved = some ((NameContext.ofBlock b).resolve n.raw)) ∧
      (p.resolve.types.map (·.fullName)) = ["App\\A"] ∧
      (p.resolve.types.flatMap fun t => t.names.map (·.name.resolved)) =
        [some "Lib\\Base", some "App\\I", some "App\\T", some "App\\J", none, some "int",
          some "App\\K", some "App\\E", some "App\\Q"] := by
  have hfound : ((Program.ofTokens Sample.spaced).toOption.map fun p =>
      (p.resolve.types.map (·.fullName),
        p.resolve.types.flatMap fun t => t.names.map (·.name.resolved))) =
      some (["App\\A"], [some "Lib\\Base", some "App\\I", some "App\\T", some "App\\J", none,
        some "int", some "App\\K", some "App\\E", some "App\\Q"]) := by
    decide +kernel
  cases h : Program.ofTokens Sample.spaced with
  | error e =>
    rw [h] at hfound
    cases hfound
  | ok p =>
    rw [h] at hfound
    obtain ⟨hfull, hnames⟩ := Prod.mk.injEq _ _ _ _ ▸ Option.some.inj hfound
    obtain ⟨htypes, herase, _⟩ := Program.resolve_reaches_class_names h
    exact ⟨p, rfl, herase, fun b hb t ht => (htypes b hb t ht).2.1, hfull, hnames⟩

end ContractAudit
