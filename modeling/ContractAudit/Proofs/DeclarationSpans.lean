import ContractAudit.Proofs.Layout
import ContractAudit.Proofs.Reading

/-! The spans of declarations as they are read. Main statement: the nodes of names, type hints,
methods, types and imports are well nested and lie in the stretch that is read, if those of the
nested parts do. -/
namespace ContractAudit.Grammar

open Source

/-- The parsers for nested parts lay their nodes in what they read. -/
structure Nested.Gives (g : Nested) : Prop where
  expr : ∀ least, Grammar.Gives (fun e => [e.outline]) (g.expr least)
  primary : Grammar.Gives (fun e => [e.outline]) g.primary
  stmt : Grammar.Gives (fun s => [s.outline]) g.stmt

instance (expected : String) : Consumes (identifier expected) :=
  .skip inferInstance fun _ => by split <;> infer_instance

theorem className_gives : Gives (fun n => [n.outline]) className :=
  .here fun _ => .token fun _ _ => .close (by simp) (fun _ => rfl) (by simp)

theorem classNames_gives : Gives (fun ns => ns.map Name.outline) classNames := by
  intro start
  have hnames := (className_gives start).sepBy1 Symbol.comma
  simp only [← List.map_eq_flatMap] at hnames
  exact hnames

theorem typeAtom_gives : Gives TypeHint.parts typeAtom := by
  refine .here fun start => .skip fun k => ?_
  split
  · exact .token fun raw _ => .close (by simp) (fun _ => rfl) (by simp)
  · exact .fail _

theorem parts_hints (hs : List TypeHint) :
    (Signature.hintNamesList hs).map Name.outline = hs.flatMap TypeHint.parts := by
  induction hs with
  | nil => rfl
  | cons h hs ih => simp [Signature.hintNamesList, TypeHint.parts, ih]

theorem typeIntersection_gives : Gives TypeHint.parts typeIntersection := by
  intro start
  have hothers : Lays start [] (fun o => o.toList.flatMap TypeHint.parts)
      (do if ← atIntersection then advance; return some (← typeAtom) else return none) := by
    refine .skip fun joined => ?_
    split
    · exact .skip fun _ => typeAtom_gives.bind fun h => .pure (by simp)
    · exact .pure (by simp)
  refine typeAtom_gives.bind fun first => hothers.many.next fun others => .pure ?_
  split
  · simp
  · simp [TypeHint.parts, Signature.hintNames, parts_hints]

theorem typeTerm_gives : Gives TypeHint.parts typeTerm := by
  refine fun start => .skip fun grouped => ?_
  split
  · exact typeIntersection_gives.bind fun h => .skip fun _ => .pure (by simp)
  · exact typeIntersection_gives start

theorem typeHint_gives : Gives TypeHint.parts typeHint := by
  refine fun start => .skip fun nullable => ?_
  split
  · exact typeAtom_gives.bind fun h => .pure (by simp [TypeHint.parts, Signature.hintNames])
  · refine ((typeTerm_gives start).sepBy1 _).next fun hints => ?_
    split
    · exact .pure (by simp)
    · exact .pure (by simp [TypeHint.parts, Signature.hintNames, parts_hints])

theorem typeAfterColon_gives : Gives (fun o => o.toList.flatMap TypeHint.parts) typeAfterColon := by
  refine fun start => .skip fun colon => ?_
  split
  · exact typeHint_gives.optional start
  · exact .pure (by simp)

instance {α : Type} (f : TokenKind → Option α) : Passes (manyKinds f) := by
  have hround : Passes (do
      match (← kind?).bind f with
      | some a => advance; return some a
      | none => return none) :=
    .bind inferInstance fun k => by split <;> infer_instance
  unfold manyKinds
  infer_instance

def ClassMember.parts : ClassMember → List Outline
  | method m => [m.outline]
  | traits names => names.map Name.outline
  | other => []

theorem traitUse_gives : Gives ClassMember.parts traitUse := by
  refine fun start => .skip fun _ => classNames_gives.bind fun names => .skip fun braces => ?_
  extract_lets rest
  have hrest : Lays start (names.map Name.outline ++ []) ClassMember.parts (rest ()) :=
    .pure (by simp [ClassMember.parts])
  split
  · exact .skip fun _ => hrest
  · exact .skip fun _ => hrest

/- What is kept of a class body. -/
theorem members_subset (ms : List ClassMember) :
    (ms.flatMap (·.traitNames)).map Name.outline ++
      (ms.filterMap (·.method?)).map MethodDecl.outline ⊆ ms.flatMap ClassMember.parts := by
  intro o ho
  rw [List.mem_append, List.mem_map, List.mem_map] at ho
  rw [List.mem_flatMap]
  rcases ho with ⟨n, hn, rfl⟩ | ⟨d, hd, rfl⟩
  · obtain ⟨m, hm, hn⟩ := List.mem_flatMap.mp hn
    cases m with
    | traits names => exact ⟨_, hm, List.mem_map_of_mem hn⟩
    | method | other => cases hn
  · obtain ⟨m, hm, hd⟩ := List.mem_filterMap.mp hd
    cases m with
    | method m =>
      cases hd
      exact ⟨_, hm, List.mem_cons_self⟩
    | traits | other => cases hd

section
variable {g : Nested} (hg : g.Gives)
include hg

theorem param_gives : Gives (fun p => [p.outline]) (param g) := by
  refine .here fun start => .skip fun _ => .skip fun promoted => .skip fun untyped => ?_
  refine .either (.empty (by simp)) typeHint_gives.optional fun hint => ?_
  refine .skip fun byRef => .skip fun variadic => .token fun lexeme _ => .skip fun assigned => ?_
  refine .either (hg.expr 0).optional (.empty (by simp)) fun default => ?_
  exact .close (by simp) (fun _ => rfl) (by simp [← List.map_eq_flatMap, TypeHint.partsOption])

theorem params_gives : Gives (fun ps => ps.flatMap fun p => [p.outline]) (params g) :=
  fun start => .skip fun _ => ((param_gives hg start).commaList _).next fun _ => .skip fun _ =>
    .pure (by simp)

theorem block_gives : Gives (fun b => [b.outline]) (block g) := by
  refine .here fun start => .token fun _ _ => ?_
  refine (Lays.many (q := fun s : Stmt => [s.outline]) ?_).next fun ss => .skip fun _ =>
    .close (by simp) (fun _ => rfl) (by simp [← List.map_eq_flatMap])
  refine .skip fun closed => ?_
  split
  · exact .pure (by simp)
  · exact .skip fun ended => .perhaps (hg.stmt.bind fun s => .pure (by simp))

theorem method_gives (modifiers : List Modifier) (doc : Option String) (start : Location) :
    Lays start.offset [] (fun m => [m.outline]) (method g modifiers doc start) := by
  refine .token fun _ o => .skip fun byRef => .skip fun name => (params_gives hg).bind fun ps =>
    typeAfterColon_gives.bind fun type => .skip fun braces => ?_
  extract_lets rest
  have hrest : ∀ body : Option Block,
      Lays start.offset (body.toList.flatMap (fun b => [b.outline]) ++
        (type.toList.flatMap TypeHint.parts ++ (ps.flatMap (fun p => [p.outline]) ++ [o])))
        (fun m => [m.outline]) (rest body) :=
    fun body => .close (by simp) (fun _ => rfl)
      (by simp [← List.map_eq_flatMap, TypeHint.partsOption])
  split
  · exact (block_gives hg).optional.bind hrest
  · exact .skip fun _ => Gives.bind (.empty (by simp)) hrest

theorem classMember_gives : Gives ClassMember.parts (classMember g) := by
  refine .here fun start => .skip fun before => .skip fun _ => .skip fun next => .skip fun k => ?_
  split
  · exact traitUse_gives _
  · exact .skip fun _ => .pure (by simp [ClassMember.parts])
  · refine .skip fun modifiers => .skip fun function => ?_
    split
    · exact (method_gives hg _ _ start).next fun m => .pure (by simp [ClassMember.parts])
    · exact .skip fun _ => .pure (by simp [ClassMember.parts])

theorem classBody_gives : Gives (fun ms => ms.flatMap ClassMember.parts) (classBody g) := by
  refine fun start => .skip fun _ => ?_
  refine (Lays.many (q := ClassMember.parts) (.skip fun closed => ?_)).next fun ms =>
    .skip fun _ => .pure (by simp)
  split
  · exact .pure (by simp)
  · exact .skip fun ended => .perhaps ((classMember_gives hg).bind fun m => .pure (by simp))

theorem typeDecl_gives (doc : Option String) : Gives (fun t => [t.outline]) (typeDecl g doc) := by
  refine .here fun start => .skip fun modifiers => .skip fun word => ?_
  split
  · exact .fail _
  · have := typeAfterColon_gives.passes
    refine .token fun _ _ => .skip fun name => .perhaps (.skip fun extended => ?_)
    refine .either classNames_gives (.empty (by simp)) fun parents => .skip fun implementing => ?_
    refine .either classNames_gives (.empty (by simp)) fun interfaces => ?_
    refine (classBody_gives hg).bind fun ms => .close (by simp) (fun _ => rfl) fun s => ?_
    obtain ⟨htraits, hmethods⟩ := List.append_subset.mp (members_subset ms)
    simp [List.subset_append_of_subset_right, List.subset_append_of_subset_left, htraits, hmethods]

theorem functionDecl_consumes : Consumes (functionDecl g) := by
  have := (params_gives hg).passes
  have := typeAfterColon_gives.passes
  have := (block_gives hg).passes
  exact .bind inferInstance fun _ => .bind inferInstance fun _ => .bind inferInstance fun _ =>
    inferInstance

end

instance (default : UseKind) : Passes (useKind default) := by
  unfold useKind
  infer_instance

instance : Passes useAlias := by
  unfold useAlias
  infer_instance

instance : Consumes importedName := by
  unfold importedName
  infer_instance

theorem groupedUse_gives (start : Location) (kind : UseKind) (base : String) :
    Lays start.offset [] (fun u => [u.outline]) (groupedUse start kind base) :=
  .skip fun _ => .token fun _ _ => .skip fun _ => .close (by simp) (fun _ => rfl) (by simp)

theorem useClause_gives (start : Location) (kind : UseKind) :
    Lays start.offset [] (fun us => us.map UseDecl.outline) (useClause start kind) := by
  refine .token fun base _ => .skip fun slash => .skip fun brace => ?_
  split
  · exact .skip fun _ => .skip fun _ => ((groupedUse_gives start kind base).commaList _).next
      fun us => .skip fun _ => .pure (by simp [← List.map_eq_flatMap])
  · exact .skip fun asName => .close (by simp) (fun _ => rfl) (by simp)

theorem useDecl_gives : Gives (fun us => us.map UseDecl.outline) useDecl :=
  .here fun start => .skip fun _ => .skip fun kind =>
    ((useClause_gives start kind).sepBy1 _).next fun _ => .skip fun _ =>
      .pure (by simp [List.map_flatten, List.flatMap_def])

end ContractAudit.Grammar
