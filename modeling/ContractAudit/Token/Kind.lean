import ContractAudit.Text

/-!
The kinds of tokens: keywords, symbols, and the classes of text with a content of its own. Every
kind has the label under which it is reported.
-/
namespace ContractAudit

inductive Keyword where
  | kwAbstract | kwAnd | kwArray | kwAs | kwBreak | kwCase | kwCatch | kwClass | kwClone | kwConst
  | kwContinue | kwDeclare | kwDefault | kwDo | kwEcho | kwElse | kwElseIf | kwEmpty | kwExtends
  | kwFinal | kwFinally | kwFn | kwFor | kwForeach | kwFunction | kwGlobal | kwIf | kwImplements
  | kwInclude | kwIncludeOnce | kwInstanceOf | kwInsteadOf | kwInterface | kwIsset | kwList
  | kwMatch | kwNamespace | kwNew | kwOr | kwPrint | kwPrivate | kwProtected | kwPublic
  | kwReadonly | kwRequire | kwRequireOnce | kwReturn | kwStatic | kwSwitch | kwThrow | kwTrait
  | kwTry | kwUnset | kwUse | kwVar | kwWhile | kwXor | kwYield
deriving DecidableEq

namespace Keyword

def text : Keyword → String
  | kwAbstract => "abstract"
  | kwAnd => "and"
  | kwArray => "array"
  | kwAs => "as"
  | kwBreak => "break"
  | kwCase => "case"
  | kwCatch => "catch"
  | kwClass => "class"
  | kwClone => "clone"
  | kwConst => "const"
  | kwContinue => "continue"
  | kwDeclare => "declare"
  | kwDefault => "default"
  | kwDo => "do"
  | kwEcho => "echo"
  | kwElse => "else"
  | kwElseIf => "elseif"
  | kwEmpty => "empty"
  | kwExtends => "extends"
  | kwFinal => "final"
  | kwFinally => "finally"
  | kwFn => "fn"
  | kwFor => "for"
  | kwForeach => "foreach"
  | kwFunction => "function"
  | kwGlobal => "global"
  | kwIf => "if"
  | kwImplements => "implements"
  | kwInclude => "include"
  | kwIncludeOnce => "include_once"
  | kwInstanceOf => "instanceof"
  | kwInsteadOf => "insteadof"
  | kwInterface => "interface"
  | kwIsset => "isset"
  | kwList => "list"
  | kwMatch => "match"
  | kwNamespace => "namespace"
  | kwNew => "new"
  | kwOr => "or"
  | kwPrint => "print"
  | kwPrivate => "private"
  | kwProtected => "protected"
  | kwPublic => "public"
  | kwReadonly => "readonly"
  | kwRequire => "require"
  | kwRequireOnce => "require_once"
  | kwReturn => "return"
  | kwStatic => "static"
  | kwSwitch => "switch"
  | kwThrow => "throw"
  | kwTrait => "trait"
  | kwTry => "try"
  | kwUnset => "unset"
  | kwUse => "use"
  | kwVar => "var"
  | kwWhile => "while"
  | kwXor => "xor"
  | kwYield => "yield"

def label : Keyword → String
  | kwAbstract => "Abstract"
  | kwAnd => "LogicalAnd"
  | kwArray => "Array"
  | kwAs => "As"
  | kwBreak => "Break"
  | kwCase => "Case"
  | kwCatch => "Catch"
  | kwClass => "Class"
  | kwClone => "Clone"
  | kwConst => "Const"
  | kwContinue => "Continue"
  | kwDeclare => "Declare"
  | kwDefault => "Default"
  | kwDo => "Do"
  | kwEcho => "Echo"
  | kwElse => "Else"
  | kwElseIf => "ElseIf"
  | kwEmpty => "Empty"
  | kwExtends => "Extends"
  | kwFinal => "Final"
  | kwFinally => "Finally"
  | kwFn => "Fn"
  | kwFor => "For"
  | kwForeach => "Foreach"
  | kwFunction => "Function"
  | kwGlobal => "Global"
  | kwIf => "If"
  | kwImplements => "Implements"
  | kwInclude => "Include"
  | kwIncludeOnce => "IncludeOnce"
  | kwInstanceOf => "InstanceOf"
  | kwInsteadOf => "InsteadOf"
  | kwInterface => "Interface"
  | kwIsset => "Isset"
  | kwList => "List"
  | kwMatch => "Match"
  | kwNamespace => "Namespace"
  | kwNew => "New"
  | kwOr => "LogicalOr"
  | kwPrint => "Print"
  | kwPrivate => "Private"
  | kwProtected => "Protected"
  | kwPublic => "Public"
  | kwReadonly => "Readonly"
  | kwRequire => "Require"
  | kwRequireOnce => "RequireOnce"
  | kwReturn => "Return"
  | kwStatic => "Static"
  | kwSwitch => "Switch"
  | kwThrow => "Throw"
  | kwTrait => "Trait"
  | kwTry => "Try"
  | kwUnset => "Unset"
  | kwUse => "Use"
  | kwVar => "Var"
  | kwWhile => "While"
  | kwXor => "LogicalXor"
  | kwYield => "Yield"

def all : List Keyword := [
  kwAbstract, kwAnd, kwArray, kwAs, kwBreak, kwCase, kwCatch, kwClass, kwClone, kwConst,
  kwContinue, kwDeclare, kwDefault, kwDo, kwEcho, kwElse, kwElseIf, kwEmpty, kwExtends, kwFinal,
  kwFinally, kwFn, kwFor, kwForeach, kwFunction, kwGlobal, kwIf, kwImplements, kwInclude,
  kwIncludeOnce, kwInstanceOf, kwInsteadOf, kwInterface, kwIsset, kwList, kwMatch, kwNamespace,
  kwNew, kwOr, kwPrint, kwPrivate, kwProtected, kwPublic, kwReadonly, kwRequire, kwRequireOnce,
  kwReturn, kwStatic, kwSwitch, kwThrow, kwTrait, kwTry, kwUnset, kwUse, kwVar, kwWhile, kwXor,
  kwYield]

def ofText? (s : String) : Option Keyword :=
  let small := Text.lower s
  all.find? (·.text == small)

end Keyword

inductive Symbol where
  | assign | plusAssign | minusAssign | mulAssign | divAssign | concatAssign | modAssign
  | powAssign | coalesceAssign | andAssign | orAssign | xorAssign | shlAssign | shrAssign | eq | ne
  | identical | notIdentical | lt | le | gt | ge | spaceship | plus | minus | star | slash
  | percent | pow | dot | inc | dec | bang | tilde | amp | pipe | caret | shl | shr | ampAmp
  | pipePipe | coalesce | question | colon | doubleColon | arrow | nullsafeArrow | doubleArrow
  | atSign | dollar | backslash | lparen | rparen | lbracket | rbracket | lbrace | rbrace
  | semicolon | comma | ellipsis | attributeStart
deriving DecidableEq

namespace Symbol

def label : Symbol → String
  | assign => "Assign"
  | plusAssign => "PlusAssign"
  | minusAssign => "MinusAssign"
  | mulAssign => "MulAssign"
  | divAssign => "DivAssign"
  | concatAssign => "ConcatAssign"
  | modAssign => "ModAssign"
  | powAssign => "PowAssign"
  | coalesceAssign => "CoalesceAssign"
  | andAssign => "AndAssign"
  | orAssign => "OrAssign"
  | xorAssign => "XorAssign"
  | shlAssign => "ShlAssign"
  | shrAssign => "ShrAssign"
  | eq => "Eq"
  | ne => "Ne"
  | identical => "Identical"
  | notIdentical => "NotIdentical"
  | lt => "Lt"
  | le => "Le"
  | gt => "Gt"
  | ge => "Ge"
  | spaceship => "Spaceship"
  | plus => "Plus"
  | minus => "Minus"
  | star => "Star"
  | slash => "Slash"
  | percent => "Percent"
  | pow => "Pow"
  | dot => "Dot"
  | inc => "Inc"
  | dec => "Dec"
  | bang => "Bang"
  | tilde => "Tilde"
  | amp => "Amp"
  | pipe => "Pipe"
  | caret => "Caret"
  | shl => "Shl"
  | shr => "Shr"
  | ampAmp => "AndAnd"
  | pipePipe => "PipePipe"
  | coalesce => "Coalesce"
  | question => "Question"
  | colon => "Colon"
  | doubleColon => "DoubleColon"
  | arrow => "Arrow"
  | nullsafeArrow => "NullsafeArrow"
  | doubleArrow => "DoubleArrow"
  | atSign => "At"
  | dollar => "Dollar"
  | backslash => "Backslash"
  | lparen => "LParen"
  | rparen => "RParen"
  | lbracket => "LBracket"
  | rbracket => "RBracket"
  | lbrace => "LBrace"
  | rbrace => "RBrace"
  | semicolon => "Semicolon"
  | comma => "Comma"
  | ellipsis => "Ellipsis"
  | attributeStart => "AttributeStart"

/-- The spellings of the symbols, the longer ones first; inequality has two. -/
def spellings : List (String × Symbol) := [
  ("**=", .powAssign), ("??=", .coalesceAssign), ("<<=", .shlAssign), (">>=", .shrAssign),
  ("===", .identical), ("!==", .notIdentical), ("<=>", .spaceship), ("?->", .nullsafeArrow),
  ("...", .ellipsis), ("+=", .plusAssign), ("-=", .minusAssign), ("*=", .mulAssign),
  ("/=", .divAssign), (".=", .concatAssign), ("%=", .modAssign), ("&=", .andAssign),
  ("|=", .orAssign), ("^=", .xorAssign), ("==", .eq), ("!=", .ne), ("<=", .le), (">=", .ge),
  ("**", .pow), ("++", .inc), ("--", .dec), ("<<", .shl), (">>", .shr), ("&&", .ampAmp),
  ("||", .pipePipe), ("??", .coalesce), ("::", .doubleColon), ("->", .arrow), ("=>", .doubleArrow),
  ("#[", .attributeStart), ("<>", .ne), ("=", .assign), ("<", .lt), (">", .gt), ("+", .plus),
  ("-", .minus), ("*", .star), ("/", .slash), ("%", .percent), (".", .dot), ("!", .bang),
  ("~", .tilde), ("&", .amp), ("|", .pipe), ("^", .caret), ("?", .question), (":", .colon),
  ("@", .atSign), ("$", .dollar), ("\\", .backslash), ("(", .lparen), (")", .rparen),
  ("[", .lbracket), ("]", .rbracket), ("\x7b", .lbrace), ("\x7d", .rbrace), (";", .semicolon),
  (",", .comma)]

def patterns : List (List Char × Symbol) := spellings.map fun (t, s) => (t.toList, s)

def longest? (cs : List Char) : Option (Symbol × Nat) :=
  (patterns.find? (·.1.isPrefixOf cs)).map fun (t, s) => (s, t.length)

end Symbol

inductive TokenKind where
  | keyword (k : Keyword)
  | symbol (s : Symbol)
  | string | heredoc | number | var | name
  | lineComment | hashComment | docComment | blockComment
  | blank | byteOrderMark | openTag
deriving DecidableEq

namespace TokenKind

def label : TokenKind → String
  | keyword k => k.label
  | symbol s => s.label
  | string => "StringLiteral"
  | heredoc => "Heredoc"
  | number => "Number"
  | var => "Variable"
  | name => "Name"
  | lineComment => "LineComment"
  | hashComment => "HashComment"
  | docComment => "DocComment"
  | blockComment => "BlockComment"
  | blank => "Whitespace"
  | byteOrderMark => "Bom"
  | openTag => "OpenTag"

def isKeyword : TokenKind → Bool
  | keyword _ => true
  | _ => false

/-- Kinds that carry nothing for a reader of the program. A docblock does, so it is not one. -/
def isTrivia : TokenKind → Bool
  | blank | byteOrderMark | lineComment | hashComment | blockComment | openTag => true
  | _ => false

end TokenKind

end ContractAudit
