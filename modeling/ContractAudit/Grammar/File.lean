import ContractAudit.Grammar.Statement

/-!
Reading a whole file: namespace blocks with their imports and types. Each nested part begins after
a token that was read before it, so one level more than there are tokens is enough for any text.
-/
namespace ContractAudit

namespace Grammar

open Source

def emptyBlock (name : Option String) (start : Location) : NamespaceBlock :=
  ⟨name, [], [], Span.single start⟩

/-- The blocks, the last first, with one more that ends at `finish`. A block with no name and
nothing in it is left out unless it is asked for. -/
def closeBlock (done : List NamespaceBlock) (b : NamespaceBlock) (finish : Location)
    (keepEmpty : Bool) : List NamespaceBlock :=
  if keepEmpty || b.name.isSome || !b.uses.isEmpty || !b.types.isEmpty then
    { b with span := ⟨b.span.start, finish⟩ } :: done
  else done

def topLevelItem (g : Nested) (b : NamespaceBlock) : Parser NamespaceBlock := do
  let before ← peek?
  skipAttributes
  if ← atTypeDecl then
    let doc := (before.bind (·.doc)).or ((← peek?).bind (·.doc))
    let t ← typeDecl g doc
    return { b with types := b.types ++ [t] }
  else
    match ← kind? with
    | some (.keyword .kwUse) => return { b with uses := b.uses ++ (← useDecl) }
    | some (.keyword .kwConst) =>
      skipStatement
      return b
    | _ =>
      let _ ← statement g
      return b

/-- The blocks that are complete, the last first, and the one that is being read. -/
structure Blocks where
  done : List NamespaceBlock
  current : NamespaceBlock

def prevEnd : Parser Location := return (← get).last

def bracedStep (g : Nested) (b : NamespaceBlock) : Parser (Option NamespaceBlock) := do
  if ← check Symbol.rbrace then return none
  else if ← atEnd then fail "'\x7d' closing namespace"
  else return some (← topLevelItem g b)

def bracedItems (g : Nested) (b : NamespaceBlock) : Parser NamespaceBlock := do
  let b ← iterate (bracedStep g) b
  let _ ← expect Symbol.rbrace "'\x7d' closing namespace"
  return b

def namespaceDecl (g : Nested) (bs : Blocks) : Parser Blocks := do
  let start ← here
  advance
  let name ← if ← check .name then (some ∘ Text.dropLeading '\\') <$> take else pure none
  let opened := emptyBlock name start
  let done := closeBlock bs.done bs.current (← prevEnd) false
  if ← accept Symbol.lbrace then
    let b ← bracedItems g opened
    return ⟨closeBlock done b (← prevEnd) true, emptyBlock none (← here)⟩
  else
    let _ ← expect Symbol.semicolon "';' after namespace name"
    return ⟨done, opened⟩

def fileStep (g : Nested) (bs : Blocks) : Parser (Option Blocks) := do
  if ← atEnd then return none
  else if ← check Keyword.kwNamespace then return some (← namespaceDecl g bs)
  else return some { bs with current := ← topLevelItem g bs.current }

def file (g : Nested) : Parser Program := do
  let start ← here
  let bs ← iterate (fileStep g) ⟨[], emptyBlock none start⟩
  let blocks := (closeBlock bs.done bs.current (← prevEnd) bs.done.isEmpty).reverse
  return ⟨blocks, false, ← spanFrom start⟩

end Grammar

open Grammar

def Grammar.Parser.run {α : Type} (p : Parser α) (ts : List Token) : Except ParseError α :=
  match p (Cursor.ofTokens ts) with
  | .ok (a, _) => .ok a
  | .error e => .error e

namespace Program

def ofTokens (ts : List Token) : Except ParseError Program :=
  Parser.run (file (levels (ts.length + 1))) ts

/-- Reads a source. Names are left as they are written. -/
def ofSource (source : String) : Except ParseError Program :=
  match Token.ofSource source with
  | .ok ts => ofTokens ts
  | .error e => .error e

end Program

namespace Expr

def ofTokens (ts : List Token) : Except ParseError Expr :=
  Parser.run (expression (levels ts.length) 0) ts

def ofSource (source : String) : Except ParseError Expr :=
  match Token.ofSource source with
  | .ok ts => ofTokens ts
  | .error e => .error e

end Expr

end ContractAudit
