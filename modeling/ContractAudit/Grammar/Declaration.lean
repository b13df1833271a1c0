import ContractAudit.Grammar.Cursor
import ContractAudit.Syntax.Decl

/-!
Reading names, type hints, parameters, methods and class-like types. What can nest without end is
read by the parsers of a `Nested`, which are used only after a token has been read.
-/
namespace ContractAudit.Grammar

open Source

/-- The parsers for nested parts. `expr p` reads an expression whose operators bind at least as
tightly as `p`. -/
structure Nested where
  expr : Nat → Parser Expr
  primary : Parser Expr
  stmt : Parser Stmt

def isIdentifier (t : Token) : Bool :=
  (t.kind == .name && !t.lexeme.toList.contains '\\') || t.kind.isKeyword

def atIdentifier : Parser Bool := return (← peek?).any isIdentifier

def identifier (expected : String) : Parser String := do
  if ← atIdentifier then take else fail expected

def className : Parser Name := do
  let start ← here
  let raw ← expect .name "name"
  return ⟨raw, none, ← spanFrom start⟩

def classNames : Parser (List Name) := sepBy1 Symbol.comma className

def variableName (lexeme : String) : String := String.ofList (lexeme.toList.drop 1)

def isTypeAtom (k : Option TokenKind) : Bool :=
  k == some .name || k == some (.keyword .kwArray) || k == some (.keyword .kwStatic)

def typeAtom : Parser TypeHint := do
  let start ← here
  if isTypeAtom (← kind?) then
    let raw ← take
    return .named ⟨raw, none, ← spanFrom start⟩
  else fail "type"

/-- Does the ampersand ahead join two types? It may also mark a parameter taken by reference. -/
def atIntersection : Parser Bool :=
  return (← check Symbol.amp) && isTypeAtom (← kindAt? 1)

def typeIntersection : Parser TypeHint := do
  let first ← typeAtom
  let others ← many do
    if ← atIntersection then
      advance
      return some (← typeAtom)
    else return none
  return if others.isEmpty then first else .intersection (first :: others)

def typeTerm : Parser TypeHint := do
  if ← accept Symbol.lparen then
    let hint ← typeIntersection
    let _ ← expect Symbol.rparen "')' closing type group"
    return hint
  else typeIntersection

def typeHint : Parser TypeHint := do
  if ← accept Symbol.question then
    return .nullable (← typeAtom)
  else
    let hints ← sepBy1 Symbol.pipe typeTerm
    match hints with
    | [hint] => return hint
    | _ => return .union hints

def paramModifier : TokenKind → Option Modifier
  | .keyword .kwPublic => some .publicMod
  | .keyword .kwProtected => some .protectedMod
  | .keyword .kwPrivate => some .privateMod
  | .keyword .kwReadonly => some .readonlyMod
  | _ => none

def typeModifier : TokenKind → Option Modifier
  | .keyword .kwAbstract => some .abstractMod
  | .keyword .kwFinal => some .finalMod
  | .keyword .kwReadonly => some .readonlyMod
  | _ => none

/-- What a keyword before a member adds to its modifiers; `var` adds nothing. -/
def memberModifier : TokenKind → Option (List Modifier)
  | .keyword .kwPublic => some [.publicMod]
  | .keyword .kwProtected => some [.protectedMod]
  | .keyword .kwPrivate => some [.privateMod]
  | .keyword .kwAbstract => some [.abstractMod]
  | .keyword .kwFinal => some [.finalMod]
  | .keyword .kwStatic => some [.staticMod]
  | .keyword .kwReadonly => some [.readonlyMod]
  | .keyword .kwVar => some []
  | _ => none

def manyKinds {α : Type} (f : TokenKind → Option α) : Parser (List α) :=
  many do
    match (← kind?).bind f with
    | some a =>
      advance
      return some a
    | none => return none

def atUntypedParam : Parser Bool := do
  let k ← kind?
  return k == some .var || k == some (.symbol .amp) || k == some (.symbol .ellipsis)

def param (g : Nested) : Parser Param := do
  let start ← here
  skipAttributes
  let promoted ← manyKinds paramModifier
  let hint ← if ← atUntypedParam then pure none else some <$> typeHint
  let byRef ← accept Symbol.amp
  let variadic ← accept Symbol.ellipsis
  let lexeme ← expect .var "parameter variable"
  let default ← if ← accept Symbol.assign then some <$> g.expr 0 else pure none
  return {
    name := variableName lexeme, hint, default, byRef, variadic, promoted
    span := ← spanFrom start }

def params (g : Nested) : Parser (List Param) := do
  let _ ← expect Symbol.lparen "'(' opening parameter list"
  let found ← commaList Symbol.rparen (param g)
  let _ ← expect Symbol.rparen "')' closing parameter list"
  return found

def block (g : Nested) : Parser Block := do
  let start ← here
  let _ ← expect Symbol.lbrace "'\x7b'"
  let statements ← many do
    if ← check Symbol.rbrace then return none
    if ← atEnd then fail "'\x7d'"
    return some (← g.stmt)
  let _ ← expect Symbol.rbrace "'\x7d'"
  return ⟨← spanFrom start, statements⟩

def typeAfterColon : Parser (Option TypeHint) := do
  if ← accept Symbol.colon then some <$> typeHint else pure none

def method (g : Nested) (modifiers : List Modifier) (doc : Option String) (start : Location) :
    Parser MethodDecl := do
  let _ ← expect Keyword.kwFunction "'function'"
  let byRef ← accept Symbol.amp
  let name ← identifier "method name"
  let params ← params g
  let returnType ← typeAfterColon
  let body ← if ← check Symbol.lbrace then some <$> block g
    else
      let _ ← expect Symbol.semicolon "';' or method body"
      pure none
  return { name, modifiers, doc, params, returnType, byRef, body, span := ← spanFrom start }

/-- A member of a class body. Properties, constants and cases of an enum are passed over. -/
inductive ClassMember where
  | method (m : MethodDecl)
  | traits (names : List Name)
  | other

def traitUse : Parser ClassMember := do
  advance
  let names ← classNames
  if ← accept Symbol.lbrace then
    skipBalanced .rbrace
  else
    let _ ← expect Symbol.semicolon "';' after trait use"
  return .traits names

def classMember (g : Nested) : Parser ClassMember := do
  let start ← here
  let before ← peek?
  skipAttributes
  let doc := (before.bind (·.doc)).or ((← peek?).bind (·.doc))
  match ← kind? with
  | some (.keyword .kwUse) => traitUse
  | some (.keyword .kwCase) =>
    skipStatement
    return .other
  | _ =>
    let modifiers := (← manyKinds memberModifier).flatten
    if ← check Keyword.kwFunction then
      return .method (← method g modifiers doc start)
    else
      skipStatement
      return .other

def classBody (g : Nested) : Parser (List ClassMember) := do
  let _ ← expect Symbol.lbrace "'\x7b' opening class body"
  let members ← many do
    if ← check Symbol.rbrace then return none
    if ← atEnd then fail "'\x7d' closing class body"
    return some (← classMember g)
  advance
  return members

def ClassMember.method? : ClassMember → Option MethodDecl
  | method m => some m
  | _ => none

def ClassMember.traitNames : ClassMember → List Name
  | traits names => names
  | _ => []

def typeKind? (t : Token) : Option TypeKind :=
  match t.kind with
  | .keyword .kwClass => some .classType
  | .keyword .kwInterface => some .interfaceType
  | .keyword .kwTrait => some .traitType
  | .name => if Text.same t.lexeme "enum" then some .enumType else none
  | _ => none

/-- Does a type declaration begin here? The word `enum` begins one only before a name. -/
def Cursor.atTypeDecl (c : Cursor) : Bool :=
  match c.rest.dropWhile (typeModifier ·.kind |>.isSome) with
  | t :: ts => match typeKind? t with
    | some .enumType => (ts.head?.map (·.kind)) == some .name
    | some _ => true
    | none => false
  | [] => false

def atTypeDecl : Parser Bool := return (← get).atTypeDecl

def typeDecl (g : Nested) (doc : Option String) : Parser TypeDecl := do
  let start ← here
  let modifiers ← manyKinds typeModifier
  match (← peek?).bind typeKind? with
  | none => fail "type declaration"
  | some kind =>
    advance
    let name ← identifier "type name"
    if kind = .enumType then
      let _ ← typeAfterColon
    let parents ← if ← accept Keyword.kwExtends then classNames else pure []
    let interfaces ← if ← accept Keyword.kwImplements then classNames else pure []
    let members ← classBody g
    return {
      kind, name, fullName := name, modifiers, parents, interfaces, doc
      traits := members.flatMap (·.traitNames)
      methods := members.filterMap (·.method?)
      span := ← spanFrom start }

def functionDecl (g : Nested) : Parser Unit := do
  let _ ← expect Keyword.kwFunction "'function'"
  let _ ← accept Symbol.amp
  let _ ← identifier "function name"
  let _ ← params g
  let _ ← typeAfterColon
  let _ ← block g

def useKind (default : UseKind) : Parser UseKind := do
  if ← accept Keyword.kwFunction then return .functionUse
  else if ← accept Keyword.kwConst then return .constUse
  else return default

def useAlias : Parser (Option String) := do
  if ← accept Keyword.kwAs then some <$> identifier "alias after 'as'" else pure none

def importedName : Parser String :=
  Text.dropLeading '\\' <$> expect .name "imported name"

def groupedUse (start : Location) (kind : UseKind) (base : String) : Parser UseDecl := do
  let kind ← useKind kind
  let part ← importedName
  let asName ← useAlias
  return ⟨kind, s!"{base}\\{part}", asName, ← spanFrom start⟩

def useClause (start : Location) (kind : UseKind) : Parser (List UseDecl) := do
  let base ← importedName
  if (← check Symbol.backslash) && (← checkAt 1 Symbol.lbrace) then
    advance
    advance
    let found ← commaList Symbol.rbrace (groupedUse start kind base)
    let _ ← expect Symbol.rbrace "'\x7d' closing group use"
    return found
  else
    let asName ← useAlias
    return [⟨kind, base, asName, ← spanFrom start⟩]

def useDecl : Parser (List UseDecl) := do
  let start ← here
  let _ ← expect Keyword.kwUse "'use'"
  let kind ← useKind .classUse
  let found ← sepBy1 Symbol.comma (useClause start kind)
  let _ ← expect Symbol.semicolon "';' after use"
  return found.flatten

end ContractAudit.Grammar
