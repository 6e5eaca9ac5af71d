import AsmExpand.Expr.Basic
import AsmExpand.Symbols
import AsmExpand.Text.Utf8

/-!
# Values of expressions

Arithmetic is that of 64-bit words that wrap round. Comparisons and the logical
operators give 0 and 1. A right shift brings in zeros, shift counts are taken
modulo 64, a quotient is cut towards zero, and a string of one or two bytes is
the number those bytes spell.

Both operands of a binary operator are evaluated, the left one first, so its
fault is the one reported. Of the branches of a conditional only the chosen one
is.
-/

namespace AsmExpand

/-- A fault at the place where it arose. -/
structure EvalError where
  fault : ExprFault
  span : Span
deriving DecidableEq

/-- A truth value as a word. -/
def truth (b : Bool) : Int64 := if b then 1 else 0

/-- A power by repeated squaring, so that an exponent costs its number of bits. -/
def wordPower (base : Int64) (exponent : Nat) : Int64 :=
  if exponent = 0 then 1
  else
    let half := wordPower (base * base) (exponent / 2)
    if exponent % 2 = 1 then base * half else half
termination_by exponent

/-- Exponents above this one act as this one. -/
def largestExponent : Nat := UInt32.size - 1

namespace UnaryOp

def apply (op : UnaryOp) (v : Int64) : Int64 :=
  match op with
  | plus => v
  | minus => -v
  | bitNot => ~~~v
  | logicNot => truth (v = 0)
  | low => v &&& 0xFF
  | high => (v >>> 8) &&& 0xFF

end UnaryOp

namespace BinaryOp

def apply (op : BinaryOp) (l r : Int64) (span : Span) : Except EvalError Int64 :=
  match op with
  | add => .ok (l + r)
  | subtract => .ok (l - r)
  | multiply => .ok (l * r)
  | divide => if r = 0 then .error ⟨.divisionByZero, span⟩ else .ok (l / r)
  | modulo => if r = 0 then .error ⟨.moduloByZero, span⟩ else .ok (l % r)
  | power => .ok (if r < 0 then 0 else wordPower l (min r.toInt.toNat largestExponent))
  | bitAnd => .ok (l &&& r)
  | bitOr => .ok (l ||| r)
  | bitXor => .ok (l ^^^ r)
  | shiftLeft => .ok (l <<< (r &&& 0x3F))
  | shiftRight => .ok (l.toUInt64 >>> (r &&& 0x3F).toUInt64).toInt64
  | eq => .ok (truth (l = r))
  | ne => .ok (truth (l ≠ r))
  | lt => .ok (truth (l < r))
  | le => .ok (truth (l ≤ r))
  | gt => .ok (truth (r < l))
  | ge => .ok (truth (r ≤ l))
  | logicAnd => .ok (truth (l ≠ 0 ∧ r ≠ 0))
  | logicOr => .ok (truth (l ≠ 0 ∨ r ≠ 0))
  | logicXor => .ok (truth ((l ≠ 0) != (r ≠ 0)))

end BinaryOp

namespace Expr

/-- The value of a string in an expression. -/
def textValue? (bytes : List Byte) : Option Int64 :=
  match bytes with
  | [b] => some (Int64.ofNat b.toNat)
  | [high, low] => some (Int64.ofNat (high.toNat * 256 + low.toNat))
  | _ => none

/-- The value of an expression, or the first fault on the way to it. -/
def eval (symbols : SymbolTable) : Expr → Except EvalError Int64
  | number value _ => .ok value
  | symbol name span =>
    match symbols.find? name with
    | some value => .ok value
    | none => .error ⟨.undefinedSymbol name, span⟩
  | text value span =>
    match textValue? (Utf8.bytes value) with
    | some value => .ok value
    | none => .error ⟨.longString, span⟩
  | unary op operand _ =>
    match operand.eval symbols with
    | .ok v => .ok (op.apply v)
    | .error e => .error e
  | binary op left right span =>
    match left.eval symbols with
    | .error e => .error e
    | .ok l =>
      match right.eval symbols with
      | .error e => .error e
      | .ok r => op.apply l r span
  | conditional cond yes no _ =>
    match cond.eval symbols with
    | .error e => .error e
    | .ok c => if c ≠ 0 then yes.eval symbols else no.eval symbols
  | error fault span => .error ⟨fault, span⟩

/-- Where a tree stands does not matter to its value, and moves its fault. -/
theorem eval_mapSpan (symbols : SymbolTable) (f : Span → Span) (e : Expr) :
    (e.mapSpan f).eval symbols =
      match e.eval symbols with
      | .ok v => .ok v
      | .error ⟨fault, span⟩ => .error ⟨fault, f span⟩ := by
  induction e with
  | number value span => rfl
  | symbol name span =>
    simp only [mapSpan, eval]
    split <;> rfl
  | text value span =>
    simp only [mapSpan, eval]
    split <;> rfl
  | unary op operand span ih =>
    simp only [mapSpan, eval, ih]
    cases operand.eval symbols <;> rfl
  | binary op left right span ihl ihr =>
    simp only [mapSpan, eval, ihl, ihr]
    cases left.eval symbols with
    | error e => rfl
    | ok l =>
      cases right.eval symbols with
      | error e => rfl
      | ok r =>
        simp only
        cases op <;> simp only [BinaryOp.apply] <;> split <;> simp_all
  | conditional cond yes no span ihc ihy ihn =>
    simp only [mapSpan, eval, ihc, ihy, ihn]
    cases cond.eval symbols with
    | error e => rfl
    | ok c =>
      simp only
      split <;> rfl
  | error fault span => rfl

end Expr

end AsmExpand
