import AsmExpand.Token.Basic

/-!
# Constant expressions

The tree of an expression, with the place of each of its parts. `Expr.error` is
the tree of what was no expression; it has a fault in place of a value.
-/

namespace AsmExpand

inductive UnaryOp where
  | plus | minus | bitNot | logicNot
  /-- The second byte from below. -/
  | high
  /-- The lowest byte. -/
  | low
deriving DecidableEq

inductive BinaryOp where
  | multiply | divide | modulo | power | shiftLeft | shiftRight | add | subtract
  | eq | ne | ge | gt | le | lt
  | bitAnd | bitOr | bitXor | logicAnd | logicOr | logicXor
deriving DecidableEq

/-- Why an expression has no value. -/
inductive ExprFault where
  | undefinedSymbol (name : String)
  | longString
  | divisionByZero
  | moduloByZero
  | missingColon
  | missingParen
  | unexpectedEnd
  | unexpectedToken
  | other (message : String)
deriving DecidableEq

namespace ExprFault

def message : ExprFault → String
  | undefinedSymbol name => "Undefined symbol: " ++ name
  | longString => "Multi-character string not allowed in expression"
  | divisionByZero => "Division by zero"
  | moduloByZero => "Modulo by zero"
  | missingColon => "Missing ':' in conditional expression"
  | missingParen => "Missing ')'"
  | unexpectedEnd => "Unexpected end of expression"
  | unexpectedToken => "Unexpected token in expression"
  | other message => message

end ExprFault

inductive Expr where
  | number (value : Int64) (span : Span)
  | symbol (name : String) (span : Span)
  | text (value : String) (span : Span)
  | unary (op : UnaryOp) (operand : Expr) (span : Span)
  | binary (op : BinaryOp) (left right : Expr) (span : Span)
  | conditional (cond yes no : Expr) (span : Span)
  | error (fault : ExprFault) (span : Span)
deriving DecidableEq

namespace Expr

/-- A tree with its places mapped. -/
def mapSpan (f : Span → Span) : Expr → Expr
  | number value span => number value (f span)
  | symbol name span => symbol name (f span)
  | text value span => text value (f span)
  | unary op operand span => unary op (operand.mapSpan f) (f span)
  | binary op left right span => binary op (left.mapSpan f) (right.mapSpan f) (f span)
  | conditional cond yes no span =>
    conditional (cond.mapSpan f) (yes.mapSpan f) (no.mapSpan f) (f span)
  | error fault span => error fault (f span)

end Expr

end AsmExpand
