import ContractAudit.Proofs.Identifiers
import ContractAudit.Proofs.Layout
import ContractAudit.Proofs.Termination

/-! The names in the tree of a source. Main statement: the parents of types and the types of methods
are written out of class names, and the names of blocks and of imports are identifiers with
backslashes between them. -/
namespace ContractAudit

open Source Text Throws

namespace Grammar

section
variable {α β : Type} {n : Nat} {W : Token → Prop} {P : α → Prop} {Q : β → Prop}

/-- If all tokens ahead have the property `W`, what the parser gives has the property `P`; and it
does not go back. -/
def DrawsAt (W : Token → Prop) (P : α → Prop) (p : Parser α) (c : Cursor) : Prop :=
  (∀ t ∈ c.rest, W t) → ∀ a d, p c = .ok (a, d) → P a ∧ d ≤ c

/-- The same wherever fewer than `n` tokens are left. -/
def Draws (n : Nat) (W : Token → Prop) (P : α → Prop) (p : Parser α) : Prop :=
  ∀ c, c.rest.length < n → DrawsAt W P p c

theorem DrawsAt.first {p : Parser β} {f : β → Parser α} {c : Cursor} (h : DrawsAt W Q p c)
    (hc : c.rest.length < n) (hf : ∀ b, Q b → Draws n W P (f b)) : DrawsAt W P (p >>= f) c := by
  intro hW a d hrun
  obtain ⟨b, c', hp, hrest⟩ := run_bind hrun
  obtain ⟨hb, hle⟩ := h hW b c' hp
  obtain ⟨ha, hle'⟩ := hf b hb c' (Cursor.left_of_le hle hc)
    (fun t ht => hW t (List.IsSuffix.subset hle ht)) a d hrest
  exact ⟨ha, hle'.trans hle⟩

namespace Draws

theorem pure {a : α} (h : P a) : Draws n W P (Pure.pure a) := by
  intro c _ _ a' d hrun
  cases hrun
  exact ⟨h, le_rfl⟩

theorem fail (expected : String) : Draws n W P (Grammar.fail expected) := by
  intro c _ _ a d hrun
  cases hrun

theorem bind {p : Parser β} {f : β → Parser α} (h : Draws n W Q p)
    (hf : ∀ b, Q b → Draws n W P (f b)) : Draws n W P (p >>= f) :=
  fun c hc => (h c hc).first hc hf

/- A look ahead tells what the next tokens are. -/
theorem look {p : Parser β} [h : Looks p] {f : β → Parser α}
    (hf : ∀ c, c.rest.length < n → ∀ b, p c = .ok (b, c) → DrawsAt W P (f b) c) :
    Draws n W P (p >>= f) := by
  intro c hc hW a d hrun
  obtain ⟨b, hb⟩ := h.looks c
  obtain ⟨b', c', hp, hrest⟩ := run_bind hrun
  rw [hb] at hp
  cases hp
  exact hf c hc b hb hW a d hrest

/- A step whose result says nothing about what comes of it. -/
theorem skip {p : Parser β} {f : β → Parser α} (h : Moves n p) (hf : ∀ b, Draws n W P (f b)) :
    Draws n W P (p >>= f) := by
  have hany : Draws n W (fun _ => True) p :=
    fun c hc _ b d hrun => ⟨trivial, (h c hc).run hrun⟩
  exact hany.bind fun b _ => hf b

theorem step {p : Parser β} [Onward p] {f : β → Parser α} (hf : ∀ b, Draws n W P (f b)) :
    Draws n W P (p >>= f) :=
  skip (Onward.moves n) hf

theorem map {p : Parser β} {f : β → α} (h : Draws n W Q p) (hf : ∀ b, Q b → P (f b)) :
    Draws n W P (f <$> p) := by
  rw [map_eq_pure_bind]
  exact h.bind fun b hb => pure (hf b hb)

theorem optional {p : Parser α} (h : Draws n W P p) :
    Draws n W (fun o => ∀ a ∈ o, P a) (some <$> p) :=
  h.map fun a ha => by simpa using ha

/- What each step that does not decline keeps holds at the end. -/
theorem iterate {step : α → Parser (Option α)} {a : α} (h : P a)
    (hstep : ∀ a, P a → Draws n W (fun o => ∀ b ∈ o, P b) (step a)) :
    Draws n W P (Grammar.iterate step a) := by
  intro c hc hW b d hrun
  have hnext {c' : Cursor} (hle : c' ≤ c) {a : α} (ha : P a) {o : Option α} {d : Cursor}
      (hrun : step a c' = .ok (o, d)) : (∀ b ∈ o, P b) ∧ d ≤ c := by
    obtain ⟨ho, hd⟩ := hstep a ha c' (Cursor.left_of_le hle hc)
      (fun t ht => hW t (List.IsSuffix.subset hle ht)) o d hrun
    exact ⟨ho, hd.trans hle⟩
  obtain ⟨c', ⟨hle, hb⟩, hlast⟩ := iterate_induction (I := fun c' a => c' ≤ c ∧ P a)
    (fun hinv hs => ⟨(hnext hinv.1 hinv.2 hs).2, (hnext hinv.1 hinv.2 hs).1 _ rfl⟩)
    ⟨le_rfl, h⟩ hrun
  exact ⟨hb, (hnext hle hb hlast).2⟩

theorem many {round : Parser (Option α)} (h : Draws n W (fun o => ∀ a ∈ o, P a) round) :
    Draws n W (fun as => ∀ a ∈ as, P a) (Grammar.many round) := by
  have hfound : Draws n W (fun as : List α => ∀ a ∈ as, P a)
      (Grammar.iterate (fun found => do return (← round).map (· :: found)) []) := by
    refine iterate (by simp) fun found hfound => h.bind fun o ho => pure ?_
    cases o with
    | none => simp
    | some a =>
      have ha : P a := ho a rfl
      simpa [ha] using hfound
  exact hfound.bind fun as has => pure (by simpa using has)

theorem sepBy1 {item : Parser α} (separator : TokenKind) (h : Draws n W P item) :
    Draws n W (fun as => ∀ a ∈ as, P a) (Grammar.sepBy1 separator item) := by
  refine h.bind fun first hfirst => ?_
  refine (many (P := P) (step fun more => ?_)).bind fun others hothers => pure ?_
  · split
    · exact h.bind fun a ha => pure (by simpa using ha)
    · exact pure (by simp)
  · simpa [hfirst] using hothers

theorem commaList {item : Parser α} (close : TokenKind) (h : Draws n W P item) :
    Draws n W (fun as => ∀ a ∈ as, P a) (Grammar.commaList close item) := by
  refine (iterate (P := fun found : List α × Bool => ∀ a ∈ found.1, P a) (by simp) ?_).bind
    fun found hfound => pure (by simpa using hfound)
  intro found hfound
  refine step fun closed => ?_
  split
  · exact pure (by simp)
  · refine h.bind fun a ha => step fun more => pure ?_
    simpa [ha] using hfound

end Draws

theorem expect_draws (k : TokenKind) (expected : String) :
    Draws n W (fun s => ∃ t, W t ∧ t.kind = k ∧ t.lexeme = s) (expect k expected) := by
  intro c _ hW s d hrun
  have hle : d ≤ c := Onward.run hrun
  obtain ⟨ahead, c₁, hahead, hrun⟩ := run_bind hrun
  cases hahead
  cases hhead : c.rest.head? with
  | none =>
    simp only [hhead] at hrun
    cases hrun
  | some t =>
    simp only [hhead] at hrun
    split at hrun
    · next hkind =>
      cases hrun
      exact ⟨⟨t, hW t (List.mem_of_mem_head? hhead), hkind, rfl⟩, hle⟩
    · cases hrun

theorem take_draws {c : Cursor} {k : TokenKind} (hk : c.kindAt? 0 = some k) :
    DrawsAt W (fun s => ∃ t, W t ∧ t.kind = k ∧ t.lexeme = s) take c := by
  intro hW s d hrun
  have hle : d ≤ c := Onward.run hrun
  cases hrest : c.rest with
  | nil => simp [Cursor.kindAt?, hrest] at hk
  | cons t ts =>
    have hkind : t.kind = k := by simpa [Cursor.kindAt?, hrest] using hk
    cases hrun
    exact ⟨⟨t, hW t (by simp [hrest]), hkind, by simp [hrest]⟩, hle⟩

theorem identifier_draws (expected : String) :
    Draws n W (fun s => ∃ t, W t ∧ isIdentifier t = true ∧ t.lexeme = s)
      (identifier expected) := by
  intro c _ hW s d hrun
  have hle : d ≤ c := Onward.run hrun
  obtain ⟨ahead, c₁, hahead, hrun⟩ := run_bind hrun
  cases hahead
  split at hrun
  · next hany =>
    cases hhead : c.rest.head? with
    | none => simp [hhead] at hany
    | some t =>
      cases hrun
      exact ⟨⟨t, hW t (List.mem_of_mem_head? hhead), by simpa [hhead] using hany,
        by simp [hhead]⟩, hle⟩
  · cases hrun

end

end Grammar

def Name.Written (n : Name) : Prop := isClassName n.raw.toList = true

/-- The names in a type have the property, and only names are intersected. -/
inductive TypeHint.BuiltOf (P : Name → Prop) : TypeHint → Prop
  | named {n : Name} (hn : P n) : BuiltOf P (.named n)
  | nullable {h : TypeHint} (hh : BuiltOf P h) : BuiltOf P (.nullable h)
  | union {hs : List TypeHint} (hhs : ∀ h ∈ hs, BuiltOf P h) : BuiltOf P (.union hs)
  | intersection {hs : List TypeHint} (hne : hs ≠ []) (hhs : ∀ h ∈ hs, ∃ n, P n ∧ h = .named n) :
      BuiltOf P (.intersection hs)

def TypeHint.Written (h : TypeHint) : Prop := h.BuiltOf Name.Written

/-- The types that a method declares. -/
def MethodDecl.hints (m : MethodDecl) : List TypeHint :=
  m.returnType.toList ++ m.params.filterMap (·.hint)

namespace Grammar

open Source TypeHint

section
variable {n : Nat}

theorem className_draws : Draws n Token.Worded Name.Written className := by
  refine .step fun start => (expect_draws _ _).bind fun raw hraw => .step fun span => .pure ?_
  obtain ⟨t, ht, hkind, rfl⟩ := hraw
  exact ht.name hkind

theorem classNames_draws : Draws n Token.Worded (fun ns => ∀ n ∈ ns, n.Written) classNames :=
  className_draws.sepBy1 _

theorem typeAtom_draws :
    Draws n Token.Worded (fun h => ∃ n : Name, n.Written ∧ h = .named n) typeAtom := by
  refine .step fun start => .look fun c hc k hk => ?_
  split
  · next hatom =>
    simp only [isTypeAtom, Bool.or_eq_true, beq_iff_eq] at hatom
    obtain ⟨k, rfl, hword⟩ : ∃ k', k = some k' ∧
        ∀ t : Token, t.Worded → t.kind = k' → isClassName t.lexeme.toList = true := by
      rcases hatom with (rfl | rfl) | rfl
      · exact ⟨_, rfl, fun t ht => ht.name⟩
      · exact ⟨_, rfl, fun t ht hkind => ((ht.keyword _ hkind).resolve_right (by simp)).isClassName⟩
      · exact ⟨_, rfl, fun t ht hkind => ((ht.keyword _ hkind).resolve_right (by simp)).isClassName⟩
    have hkind : c.kindAt? 0 = some k := congrArg Prod.fst (Except.ok.inj hk)
    refine (take_draws hkind).first hc fun raw hraw => .step fun span => .pure ⟨_, ?_, rfl⟩
    obtain ⟨t, ht, hkind, rfl⟩ := hraw
    exact hword t ht hkind
  · exact Draws.fail _ c hc

theorem typeIntersection_draws : Draws n Token.Worded Written typeIntersection := by
  refine typeAtom_draws.bind fun first hfirst => ?_
  refine (Draws.many (P := fun h => ∃ n : Name, n.Written ∧ h = .named n) ?_).bind
    fun others hothers => .pure ?_
  · refine .step fun joined => ?_
    split
    · exact .step fun _ => typeAtom_draws.bind fun h hh => .pure (by simpa using hh)
    · exact .pure (by simp)
  · split
    · obtain ⟨n, hn, rfl⟩ := hfirst
      exact .named hn
    · exact .intersection (List.cons_ne_nil _ _) (List.forall_mem_cons.mpr ⟨hfirst, hothers⟩)

theorem typeTerm_draws : Draws n Token.Worded Written typeTerm := by
  refine .step fun grouped => ?_
  split
  · exact typeIntersection_draws.bind fun h hh => .step fun _ => .pure hh
  · exact typeIntersection_draws

theorem typeHint_draws : Draws n Token.Worded Written typeHint := by
  refine .step fun nullable => ?_
  split
  · refine typeAtom_draws.bind fun h hh => .pure ?_
    obtain ⟨n, hn, rfl⟩ := hh
    exact .nullable (.named hn)
  · refine (typeTerm_draws.sepBy1 _).bind fun hints hhints => ?_
    split
    · next h => exact .pure (hhints h List.mem_cons_self)
    · exact .pure (.union hhints)

theorem typeAfterColon_draws :
    Draws n Token.Worded (fun o => ∀ h ∈ o, Written h) typeAfterColon := by
  refine .step fun colon => ?_
  split
  · exact typeHint_draws.optional
  · exact .pure (by simp)

end

section
variable {n : Nat} {g : Nested} (hg : g.Reads n)
include hg

theorem param_draws : Draws n Token.Worded (fun p => ∀ h ∈ p.hint, Written h) (param g) := by
  refine .step fun start => .step fun _ => .step fun promoted => .step fun untyped => ?_
  extract_lets typed
  have htyped : ∀ hint : Option TypeHint, (∀ h ∈ hint, Written h) →
      Draws n Token.Worded (fun p => ∀ h ∈ p.hint, Written h) (typed hint) := by
    intro hint hhint
    refine .step fun byRef => .step fun variadic => .step fun lexeme => .step fun assigned => ?_
    split
    · exact .skip (hg.expr 0).moves.map fun default => .step fun span => .pure hhint
    · exact .step fun default => .step fun span => .pure hhint
  split
  · exact (Draws.pure (P := fun o => ∀ h ∈ o, Written h) (by simp)).bind htyped
  · exact typeHint_draws.optional.bind htyped

theorem method_draws (modifiers : List Modifier) (doc : Option String) (start : Location) :
    Draws n Token.Worded (fun m => ∀ h ∈ m.hints, Written h) (method g modifiers doc start) := by
  have hparams : Draws n Token.Worded (fun ps => ∀ p ∈ ps, ∀ h ∈ p.hint, Written h) (params g) :=
    .step fun _ => ((param_draws hg).commaList _).bind fun ps hps => .step fun _ => .pure hps
  refine .step fun _ => .step fun byRef => .step fun name => hparams.bind fun ps hps =>
    typeAfterColon_draws.bind fun result hresult => .step fun brace => ?_
  have hhints : ∀ h ∈ result.toList ++ ps.filterMap (·.hint), Written h := by
    intro h hh
    rcases List.mem_append.mp hh with hh | hh
    · exact hresult h (Option.mem_toList.mp hh)
    · obtain ⟨p, hp, hh⟩ := List.mem_filterMap.mp hh
      exact hps p hp h hh
  split
  · exact .skip (block_reads hg).later.moves.map fun body => .step fun span => .pure hhints
  · exact .step fun _ => .step fun body => .step fun span => .pure hhints

omit hg in
/-- A member whose types are written out of class names. -/
def ClassMember.Written (member : ClassMember) : Prop :=
  ∀ m ∈ member.method?, ∀ h ∈ m.hints, h.Written

theorem classMember_draws : Draws n Token.Worded ClassMember.Written (classMember g) := by
  have htraits (names : List Name) : (ClassMember.traits names).Written := by
    simp [ClassMember.Written, ClassMember.method?]
  have hother : ClassMember.other.Written := by simp [ClassMember.Written, ClassMember.method?]
  refine .step fun start => .step fun before => .step fun _ => .step fun next => .step fun k => ?_
  split
  · refine .step fun _ => .step fun names => .step fun braces => ?_
    split
    · exact .step fun _ => .pure (htraits names)
    · exact .step fun _ => .pure (htraits names)
  · exact .skip skipStatement_reads.moves fun _ => .pure hother
  · refine .step fun modifiers => .step fun function => ?_
    split
    · refine (method_draws hg _ _ _).bind fun m hm => .pure ?_
      simpa [ClassMember.Written, ClassMember.method?] using hm
    · exact .skip skipStatement_reads.moves fun _ => .pure hother

theorem classBody_draws :
    Draws n Token.Worded (fun members => ∀ member ∈ members, member.Written) (classBody g) := by
  refine .step fun _ => (Draws.many (.step fun closed => ?_)).bind fun members hmembers =>
    .step fun _ => .pure hmembers
  split
  · exact .pure (by simp)
  · refine .step fun ended => ?_
    extract_lets inner
    have hinner : Draws n Token.Worded (fun o => ∀ member ∈ o, member.Written) (inner ()) :=
      (classMember_draws hg).bind fun member hmember => .pure (by simpa using hmember)
    split
    · exact .step fun _ => hinner
    · exact hinner

end

end Grammar

/-- A type whose parts are written out of class names. -/
structure TypeDecl.Written (t : TypeDecl) : Prop where
  name : IsPath t.name ∨ t.name = "<?="
  parents : ∀ n ∈ t.parents, n.Written
  hints : ∀ m ∈ t.methods, ∀ h ∈ m.hints, h.Written

/-- The same of all types of a block; its name and its imports are full names. -/
structure NamespaceBlock.Written (b : NamespaceBlock) : Prop where
  space : ∀ s ∈ b.name, IsPath s
  uses : ∀ u ∈ b.uses, IsPath u.name
  types : ∀ t ∈ b.types, t.Written

namespace Grammar

open Source

section
variable {n : Nat} {g : Nested} (hg : g.Reads n)
include hg

theorem typeDecl_draws (doc : Option String) :
    Draws n Token.Worded TypeDecl.Written (typeDecl g doc) := by
  refine .step fun start => .step fun modifiers => .step fun word => ?_
  split
  · exact .fail _
  · refine .step fun _ => (identifier_draws _).bind fun name hname => ?_
    obtain ⟨w, hw, hident, rfl⟩ := hname
    have hname := hw.identifier hident
    extract_lets headed rest
    have hheaded : ∀ ps : List Name, (∀ n ∈ ps, n.Written) →
        Draws n Token.Worded TypeDecl.Written (headed ps) := by
      intro ps hps
      refine .step fun implementing => ?_
      extract_lets body
      have hbody : ∀ is, Draws n Token.Worded TypeDecl.Written (body is) := by
        refine fun is => (classBody_draws hg).bind fun members hmembers => .step fun span =>
          .pure ⟨hname, hps, ?_⟩
        intro m hm
        obtain ⟨member, hmember, hm⟩ := List.mem_filterMap.mp hm
        exact hmembers member hmember m hm
      split
      · exact .step hbody
      · exact .step hbody
    have hrest : Draws n Token.Worded TypeDecl.Written (rest ()) := by
      refine .step fun extended => ?_
      split
      · exact classNames_draws.bind hheaded
      · exact (Draws.pure (P := fun ps => ∀ n ∈ ps, n.Written) (by simp)).bind hheaded
    split
    · exact .step fun _ => hrest
    · exact hrest

omit hg in
theorem importedName_draws : Draws n Token.Worded IsPath importedName := by
  refine (expect_draws _ _).map fun raw hraw => ?_
  obtain ⟨t, ht, hkind, rfl⟩ := hraw
  exact isPath_dropLeading (ht.name hkind)

omit hg in
theorem useClause_draws (start : Location) (kind : UseKind) :
    Draws n Token.Worded (fun us => ∀ u ∈ us, IsPath u.name) (useClause start kind) := by
  refine importedName_draws.bind fun base hbase => .step fun backslash => .step fun brace => ?_
  split
  · have hgrouped : Draws n Token.Worded (fun u => IsPath u.name) (groupedUse start kind base) :=
      .step fun kind => importedName_draws.bind fun part hpart => .step fun asName =>
        .step fun span => .pure (hbase.join hpart)
    exact .step fun _ => .step fun _ => (hgrouped.commaList _).bind fun us hus =>
      .step fun _ => .pure hus
  · exact .step fun asName => .step fun span => .pure (by simpa using hbase)

omit hg in
theorem useDecl_draws : Draws n Token.Worded (fun us => ∀ u ∈ us, IsPath u.name) useDecl := by
  refine .step fun start => .step fun _ => .step fun kind =>
    ((useClause_draws start kind).sepBy1 _).bind fun found hfound => .step fun _ => .pure ?_
  intro u hu
  obtain ⟨us, hus, hu⟩ := List.mem_flatten.mp hu
  exact hfound us hus u hu

theorem topLevelItem_draws {b : NamespaceBlock} (hb : b.Written) :
    Draws n Token.Worded NamespaceBlock.Written (topLevelItem g b) := by
  refine .step fun before => .step fun _ => .step fun declares => ?_
  split
  · refine .step fun next => (typeDecl_draws hg _).bind fun t ht => .pure ⟨hb.space, hb.uses, ?_⟩
    exact List.forall_mem_append.mpr ⟨hb.types, List.forall_mem_singleton.mpr ht⟩
  · refine .step fun k => ?_
    split
    · exact useDecl_draws.bind fun us hus =>
        .pure ⟨hb.space, List.forall_mem_append.mpr ⟨hb.uses, hus⟩, hb.types⟩
    · exact .skip skipStatement_reads.moves fun _ => .pure hb
    · exact .skip (statement_reads hg).later.moves fun _ => .pure hb

omit hg in
theorem emptyBlock_written {name : Option String} (start : Location) (h : ∀ s ∈ name, IsPath s) :
    (emptyBlock name start).Written where
  space := h
  uses := by simp [emptyBlock]
  types := by simp [emptyBlock]

omit hg in
theorem closeBlock_written {done : List NamespaceBlock} {b : NamespaceBlock}
    (hdone : ∀ b ∈ done, b.Written) (hb : b.Written) (finish : Location) (keepEmpty : Bool) :
    ∀ b' ∈ closeBlock done b finish keepEmpty, b'.Written := by
  unfold closeBlock
  split
  · exact List.forall_mem_cons.mpr ⟨⟨hb.space, hb.uses, hb.types⟩, hdone⟩
  · exact hdone

theorem bracedStep_draws {b : NamespaceBlock} (hb : b.Written) :
    Draws n Token.Worded (fun o => ∀ b ∈ o, b.Written) (bracedStep g b) := by
  refine .step fun closed => ?_
  split
  · exact .pure (by simp)
  · refine .step fun ended => ?_
    split
    · exact .fail _
    · exact (topLevelItem_draws hg hb).bind fun b hb => .pure (by simpa using hb)

theorem bracedItems_draws {b : NamespaceBlock} (hb : b.Written) :
    Draws n Token.Worded NamespaceBlock.Written (bracedItems g b) :=
  (Draws.iterate hb fun _ hb => bracedStep_draws hg hb).bind fun _ hb => .step fun _ => .pure hb

omit hg in
/-- All blocks that are complete, and the one that is being read. -/
structure Blocks.Written (bs : Blocks) : Prop where
  done : ∀ b ∈ bs.done, b.Written
  current : bs.current.Written

theorem namespaceDecl_draws {bs : Blocks} (hbs : bs.Written) :
    Draws n Token.Worded Blocks.Written (namespaceDecl g bs) := by
  refine .step fun start => .step fun _ => .look fun c hc named hnamed => ?_
  extract_lets rest
  have hrest : ∀ name : Option String, (∀ s ∈ name, IsPath s) →
      Draws n Token.Worded Blocks.Written (rest name) := by
    intro name hname
    refine .step fun finish => .step fun braces => ?_
    have hdone := closeBlock_written hbs.done hbs.current finish false
    have hopened : (emptyBlock name start).Written := emptyBlock_written start hname
    split
    · exact (bracedItems_draws hg hopened).bind fun b hb => .step fun finish' => .step fun next =>
        .pure ⟨closeBlock_written hdone hb finish' true, emptyBlock_written next (by simp)⟩
    · exact .step fun _ => .pure ⟨hdone, hopened⟩
  split
  · next hname =>
    subst hname
    have hkind : (c.kindAt? 0 == some .name) = true := congrArg Prod.fst (Except.ok.inj hnamed)
    rw [map_eq_pure_bind, bind_assoc]
    refine (take_draws (beq_iff_eq.mp hkind)).first hc fun raw hraw => hrest _ ?_
    obtain ⟨t, ht, hname, rfl⟩ := hraw
    simpa using isPath_dropLeading (ht.name hname)
  · exact (Draws.pure (P := fun name => ∀ s ∈ name, IsPath s) (by simp)).bind hrest c hc

theorem fileStep_draws {bs : Blocks} (hbs : bs.Written) :
    Draws n Token.Worded (fun o => ∀ bs ∈ o, bs.Written) (fileStep g bs) := by
  refine .step fun ended => ?_
  split
  · exact .pure (by simp)
  · refine .step fun declares => ?_
    split
    · exact (namespaceDecl_draws hg hbs).bind fun bs hbs => .pure (by simpa using hbs)
    · exact (topLevelItem_draws hg hbs.current).bind fun b hb =>
        .pure (by simpa using ⟨hbs.done, hb⟩)

theorem file_draws :
    Draws n Token.Worded (fun p => p.namesResolved = false ∧ ∀ b ∈ p.blocks, b.Written)
      (file g) := by
  refine .step fun start => ?_
  have hempty : Blocks.Written ⟨[], emptyBlock none start⟩ :=
    ⟨by simp, emptyBlock_written start (by simp)⟩
  refine (Draws.iterate hempty fun bs hbs => fileStep_draws hg hbs).bind fun bs hbs =>
    .step fun finish => .step fun span => .pure ⟨rfl, ?_⟩
  have hblocks := closeBlock_written hbs.done hbs.current finish bs.done.isEmpty
  simpa using hblocks

end

end Grammar

/-- The tree of a source is written out of class names. -/
theorem Program.ofSource_written {source : String} {p : Program} (h : ofSource source = .ok p) :
    p.namesResolved = false ∧ ∀ b ∈ p.blocks, b.Written := by
  unfold ofSource at h
  split at h
  · next ts hts =>
    unfold ofTokens Grammar.Parser.run at h
    split at h
    · next p' c hrun =>
      cases h
      exact (Grammar.file_draws (Grammar.levels_reads _) _ ts.length.lt_succ_self
        (Token.worded_ofSource hts) p c hrun).1
    · cases h
  · cases h

end ContractAudit
