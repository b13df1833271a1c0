import ContractAudit.Syntax.Expr
import ContractAudit.Token.Kind

/-!
How tightly operators bind. A larger power binds more tightly; of two operators with one power the
left one is applied first, except for `??` and `**`.
-/
namespace ContractAudit.Grammar

namespace Power

def assign : Nat := 4

def ternary : Nat := 5

def not : Nat := 19

def instanceOf : Nat := 20

def unary : Nat := 21

def clone : Nat := 23

end Power

structure Infix where
  op : BinaryOp
  power : Nat
  rightAssoc : Bool

namespace Infix

/-- The least power that an operator of the right operand has to have. -/
def rightPower (i : Infix) : Nat := if i.rightAssoc then i.power else i.power + 1

def ofKind? : TokenKind → Option Infix
  | .keyword .kwOr => some ⟨.or, 1, false⟩
  | .keyword .kwXor => some ⟨.xor, 2, false⟩
  | .keyword .kwAnd => some ⟨.and, 3, false⟩
  | .symbol .coalesce => some ⟨.coalesce, 7, true⟩
  | .symbol .pipePipe => some ⟨.or, 8, false⟩
  | .symbol .ampAmp => some ⟨.and, 9, false⟩
  | .symbol .pipe => some ⟨.bitOr, 10, false⟩
  | .symbol .caret => some ⟨.bitXor, 11, false⟩
  | .symbol .amp => some ⟨.bitAnd, 12, false⟩
  | .symbol .eq => some ⟨.eq, 13, false⟩
  | .symbol .ne => some ⟨.ne, 13, false⟩
  | .symbol .identical => some ⟨.identical, 13, false⟩
  | .symbol .notIdentical => some ⟨.notIdentical, 13, false⟩
  | .symbol .spaceship => some ⟨.spaceship, 13, false⟩
  | .symbol .lt => some ⟨.lt, 14, false⟩
  | .symbol .le => some ⟨.le, 14, false⟩
  | .symbol .gt => some ⟨.gt, 14, false⟩
  | .symbol .ge => some ⟨.ge, 14, false⟩
  | .symbol .dot => some ⟨.concat, 15, false⟩
  | .symbol .shl => some ⟨.shl, 16, false⟩
  | .symbol .shr => some ⟨.shr, 16, false⟩
  | .symbol .plus => some ⟨.add, 17, false⟩
  | .symbol .minus => some ⟨.sub, 17, false⟩
  | .symbol .star => some ⟨.mul, 18, false⟩
  | .symbol .slash => some ⟨.div, 18, false⟩
  | .symbol .percent => some ⟨.mod, 18, false⟩
  | .symbol .pow => some ⟨.pow, 22, true⟩
  | _ => none

end Infix

def assignOp? : TokenKind → Option AssignOp
  | .symbol .assign => some .assign
  | .symbol .plusAssign => some .plus
  | .symbol .minusAssign => some .minus
  | .symbol .mulAssign => some .mul
  | .symbol .divAssign => some .div
  | .symbol .concatAssign => some .concat
  | .symbol .modAssign => some .mod
  | .symbol .powAssign => some .pow
  | .symbol .coalesceAssign => some .coalesce
  | .symbol .andAssign => some .bitAnd
  | .symbol .orAssign => some .bitOr
  | .symbol .xorAssign => some .bitXor
  | .symbol .shlAssign => some .shl
  | .symbol .shrAssign => some .shr
  | _ => none

/-- An operator before its operand, and the least power of the operators inside that operand. -/
def unaryOp? : TokenKind → Option (UnaryOp × Nat)
  | .symbol .bang => some (.not, Power.not)
  | .symbol .minus => some (.neg, Power.unary)
  | .symbol .plus => some (.plus, Power.unary)
  | .symbol .tilde => some (.bitNot, Power.unary)
  | .symbol .atSign => some (.silence, Power.unary)
  | .symbol .amp => some (.ref, Power.unary)
  | .symbol .inc => some (.preInc, Power.unary)
  | .symbol .dec => some (.preDec, Power.unary)
  | _ => none

def wordOp? : TokenKind → Option (WordOp × Nat)
  | .keyword .kwClone => some (.clone, Power.clone)
  | .keyword .kwPrint => some (.print, Power.assign)
  | .keyword .kwInclude | .keyword .kwIncludeOnce | .keyword .kwRequire
  | .keyword .kwRequireOnce => some (.including, Power.assign)
  | _ => none

def castTypes : List String := [
  "int", "integer", "bool", "boolean", "float", "double", "real", "string", "array", "object",
  "unset", "binary"]

end ContractAudit.Grammar
