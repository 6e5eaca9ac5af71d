import AsmExpand.Expr.Eval
import AsmExpand.Stream.Basic

/-!
# Expressions on a stream

An expression is read from the current token on, and the token that ends it
stays current. The grammar has these levels, from loosest to tightest:

* `<` or `>` in front of a whole expression, and the conditional `a ? b : c`;
* nine levels of binary operators that group to the left, `Operator.rank?`;
* `**`, which groups to the right;
* `+`, `-`, `~`, `!` in front of an operand;
* constants, names and parentheses.

What does not fit the grammar gives a tree with an error in it, and the token
that did not fit stays current. Nothing is reported here.

The parser works for every `Advance`. Each function returns the stream it
stopped at together with the fact that its load has not grown; every recursive
call is either on a tighter level or behind a token.
-/

namespace AsmExpand

namespace Operator

/-- The level of a binary operator that groups to the left, 1 being the tightest. -/
def rank? : Operator → Option (Nat × BinaryOp)
  | multiply => some (1, .multiply)
  | divide => some (1, .divide)
  | modulo => some (1, .modulo)
  | plus => some (2, .add)
  | minus => some (2, .subtract)
  | shiftLeft => some (3, .shiftLeft)
  | shiftRight => some (3, .shiftRight)
  | eq => some (4, .eq)
  | ne => some (4, .ne)
  | ge => some (4, .ge)
  | gt => some (4, .gt)
  | le => some (4, .le)
  | lt => some (4, .lt)
  | bitAnd => some (5, .bitAnd)
  | bitXor => some (6, .bitXor)
  | bitOr => some (7, .bitOr)
  | logicAnd => some (8, .logicAnd)
  | logicOr => some (9, .logicOr)
  | logicXor => some (9, .logicXor)
  | power | bitNot | logicNot => none

/-- The operators in front of an operand. -/
def unary? : Operator → Option UnaryOp
  | plus => some .plus
  | minus => some .minus
  | bitNot => some .bitNot
  | logicNot => some .logicNot
  | _ => none

/-- The operators in front of a whole expression. -/
def byteOf? : Operator → Option UnaryOp
  | lt => some .low
  | gt => some .high
  | _ => none

end Operator

namespace Kind

def operator? : Kind → Option Operator
  | operator op => some op
  | _ => none

/-- The operator of one level that a token is. -/
def binaryAt? (rank : Nat) (k : Kind) : Option BinaryOp :=
  match k.operator?.bind Operator.rank? with
  | some (r, op) => if r = rank then some op else none
  | none => none

def unary? (k : Kind) : Option UnaryOp := k.operator?.bind Operator.unary?

def byteOf? (k : Kind) : Option UnaryOp := k.operator?.bind Operator.byteOf?

theorem not_isSeparator_of_operator? {k : Kind} {op : Operator} (h : k.operator? = some op) :
    k.isSeparator = false := by
  cases k <;> simp [operator?, isSeparator] at *

theorem not_isSeparator_of_binaryAt? {k : Kind} {rank : Nat} {op : BinaryOp}
    (h : k.binaryAt? rank = some op) : k.isSeparator = false := by
  cases hk : k.operator? with
  | none => simp [binaryAt?, hk] at h
  | some o => exact not_isSeparator_of_operator? hk

theorem not_isSeparator_of_unary? {k : Kind} {op : UnaryOp} (h : k.unary? = some op) :
    k.isSeparator = false := by
  obtain ⟨o, hk, _⟩ := Option.bind_eq_some_iff.1 h
  exact not_isSeparator_of_operator? hk

theorem not_isSeparator_of_byteOf? {k : Kind} {op : UnaryOp} (h : k.byteOf? = some op) :
    k.isSeparator = false := by
  obtain ⟨o, hk, _⟩ := Option.bind_eq_some_iff.1 h
  exact not_isSeparator_of_operator? hk

end Kind

/-- What reading from `s` on gives. -/
structure Parsed (s : Stream) where
  expr : Expr
  rest : Stream
  load_le : rest.load ≤ s.load

namespace Parsed

/-- The same reading, seen from an earlier stream. -/
def since {s t : Stream} (r : Parsed t) (h : t.load ≤ s.load) (wrap : Expr → Expr := id) :
    Parsed s :=
  ⟨wrap r.expr, r.rest, Nat.le_trans r.load_le h⟩

/-- The tree and the stream behind it. -/
def read {s : Stream} (r : Parsed s) : Expr × Stream := (r.expr, r.rest)

@[simp] theorem read_since {s t : Stream} (r : Parsed t) (h : t.load ≤ s.load)
    (wrap : Expr → Expr) : (r.since h wrap).read = (wrap r.read.1, r.read.2) := rfl

end Parsed

namespace Advance

variable (advance : Advance)

/-- The loosest level of binary operators. -/
def loosest : Nat := 9

mutual

/-- A whole expression. -/
def expression (s : Stream) : Parsed s :=
  match h : s.kind.byteOf? with
  | some op =>
    (expression (advance s)).since (advance.load_le s) fun e => .unary op e s.current.span
  | none =>
    match binary loosest s with
    | ⟨cond, s₁, h₁⟩ =>
      if hq : s₁.kind = .question then
        match expression (advance s₁) with
        | ⟨yes, s₂, h₂⟩ =>
          if hc : s₂.kind = .colon then
            match expression (advance s₂) with
            | ⟨no, s₃, h₃⟩ =>
              ⟨.conditional cond yes no s₁.current.span, s₃, by
                have := advance.load_le s₁
                have := advance.load_le s₂
                omega⟩
          else ⟨.error .missingColon s₂.current.span, s₂, by
            have := advance.load_le s₁
            omega⟩
      else ⟨cond, s₁, h₁⟩
termination_by 16 * s.load + 14
decreasing_by
  · have := advance.load_lt_of_not_isSeparator (Kind.not_isSeparator_of_byteOf? h)
    omega
  · simp [loosest]
  · have := advance.load_lt (s := s₁) (by simp [hq])
    omega
  · have := advance.load_lt (s := s₂) (by simp [hc])
    have := advance.load_le s₁
    omega

/-- Operators of the levels up to `rank`. -/
def binary (rank : Nat) (s : Stream) : Parsed s :=
  match rank with
  | 0 => power s
  | rank + 1 =>
    match binary rank s with
    | ⟨left, s₁, h₁⟩ => (chain rank left s₁).since h₁
termination_by 16 * s.load + 4 + rank

/-- Operators of the level above `rank` behind their left operand. -/
def chain (rank : Nat) (left : Expr) (s : Stream) : Parsed s :=
  match _h : s.kind.binaryAt? (rank + 1) with
  | none => ⟨left, s, Nat.le_refl _⟩
  | some op =>
    match binary rank (advance s) with
    | ⟨right, s₁, h₁⟩ =>
      (chain rank (.binary op left right s.current.span) s₁).since
        (Nat.le_trans h₁ (advance.load_le s))
termination_by 16 * s.load + 4 + rank
decreasing_by
  · have := advance.load_lt_of_not_isSeparator (Kind.not_isSeparator_of_binaryAt? _h)
    omega
  · have := advance.load_lt_of_not_isSeparator (Kind.not_isSeparator_of_binaryAt? _h)
    omega

/-- A power. -/
def power (s : Stream) : Parsed s :=
  match unary s with
  | ⟨base, s₁, h₁⟩ =>
    if _h : s₁.kind = .operator .power then
      (power (advance s₁)).since (Nat.le_trans (advance.load_le s₁) h₁) fun e =>
        .binary .power base e s₁.current.span
    else ⟨base, s₁, h₁⟩
termination_by 16 * s.load + 3
decreasing_by
  · omega
  · have := advance.load_lt (s := s₁) (by simp [_h])
    omega

/-- An operand with the operators in front of it. -/
def unary (s : Stream) : Parsed s :=
  match _h : s.kind.unary? with
  | some op => (unary (advance s)).since (advance.load_le s) fun e => .unary op e s.current.span
  | none => primary s
termination_by 16 * s.load + 2
decreasing_by
  · have := advance.load_lt_of_not_isSeparator (Kind.not_isSeparator_of_unary? _h)
    omega
  · omega

/-- A constant, a name, or an expression in parentheses. -/
def primary (s : Stream) : Parsed s :=
  match _h : s.kind with
  | .int => ⟨.number (s.current.int?.getD 0) s.current.span, advance s, advance.load_le s⟩
  | .ident => ⟨.symbol s.current.text s.current.span, advance s, advance.load_le s⟩
  | .text => ⟨.text s.current.text s.current.span, advance s, advance.load_le s⟩
  | .leftParen =>
    match expression (advance s) with
    | ⟨e, s₁, h₁⟩ =>
      if s₁.kind = .rightParen then
        ⟨e, advance s₁, by
          have := advance.load_le s
          have := advance.load_le s₁
          omega⟩
      else ⟨.error .missingParen s₁.current.span, s₁, Nat.le_trans h₁ (advance.load_le s)⟩
  | k =>
    if k.isSeparator then ⟨.error .unexpectedEnd s.current.span, s, Nat.le_refl _⟩
    else ⟨.error .unexpectedToken s.current.span, s, Nat.le_refl _⟩
termination_by 16 * s.load + 1
decreasing_by
  have := advance.load_lt (s := s) (by simp [_h])
  omega

end

/-! ## What each level reads

The same functions as equations between trees and streams, free of the bounds
that make them end. -/

theorem expression_read (s : Stream) :
    (advance.expression s).read =
      match s.kind.byteOf? with
      | some op =>
        let r := (advance.expression (advance s)).read
        (.unary op r.1 s.current.span, r.2)
      | none =>
        let cond := (advance.binary loosest s).read
        if cond.2.kind = .question then
          let yes := (advance.expression (advance cond.2)).read
          if yes.2.kind = .colon then
            let no := (advance.expression (advance yes.2)).read
            (.conditional cond.1 yes.1 no.1 cond.2.current.span, no.2)
          else (.error .missingColon yes.2.current.span, yes.2)
        else cond := by
  rw [expression]
  split
  · rename_i op h
    simp [h]
  · rename_i h
    simp only [h, Parsed.read]
    by_cases hq : (advance.binary loosest s).rest.kind = .question
    · by_cases hc :
          (advance.expression (advance (advance.binary loosest s).rest)).rest.kind = .colon
      · simp [hq, hc]
      · simp [hq, hc]
    · simp [hq]

theorem binary_zero_read (s : Stream) :
    (advance.binary 0 s).read = (advance.power s).read := by
  rw [binary]

theorem binary_succ_read (rank : Nat) (s : Stream) :
    (advance.binary (rank + 1) s).read =
      let left := (advance.binary rank s).read
      (advance.chain rank left.1 left.2).read := by
  rw [binary]
  rfl

theorem chain_read (rank : Nat) (left : Expr) (s : Stream) :
    (advance.chain rank left s).read =
      match s.kind.binaryAt? (rank + 1) with
      | none => (left, s)
      | some op =>
        let right := (advance.binary rank (advance s)).read
        (advance.chain rank (.binary op left right.1 s.current.span) right.2).read := by
  rw [chain]
  split
  · rename_i h
    simp [h, Parsed.read]
  · rename_i op h
    simp only [h]
    rfl

theorem power_read (s : Stream) :
    (advance.power s).read =
      let base := (advance.unary s).read
      if base.2.kind = .operator .power then
        let r := (advance.power (advance base.2)).read
        (.binary .power base.1 r.1 base.2.current.span, r.2)
      else base := by
  rw [power]
  simp only [Parsed.read]
  by_cases h : (advance.unary s).rest.kind = .operator .power
  · simp [h, Parsed.since]
  · simp [h]

theorem unary_read (s : Stream) :
    (advance.unary s).read =
      match s.kind.unary? with
      | some op =>
        let r := (advance.unary (advance s)).read
        (.unary op r.1 s.current.span, r.2)
      | none => (advance.primary s).read := by
  rw [unary]
  split
  · rename_i h
    simp [h]
  · rename_i h
    simp [h]

theorem primary_read (s : Stream) :
    (advance.primary s).read =
      match s.kind with
      | .int => (.number (s.current.int?.getD 0) s.current.span, advance s)
      | .ident => (.symbol s.current.text s.current.span, advance s)
      | .text => (.text s.current.text s.current.span, advance s)
      | .leftParen =>
        let r := (advance.expression (advance s)).read
        if r.2.kind = .rightParen then (r.1, advance r.2)
        else (.error .missingParen r.2.current.span, r.2)
      | k =>
        if k.isSeparator then (.error .unexpectedEnd s.current.span, s)
        else (.error .unexpectedToken s.current.span, s) := by
  rw [primary]
  simp only [Parsed.read]
  split
  · simp [*]
  · simp [*]
  · simp [*]
  · by_cases h : (advance.expression (advance s)).rest.kind = .rightParen
    · simp [*]
    · simp [*]
  · by_cases h : s.kind.isSeparator
    · simp [*]
    · simp [*]

/-- The value of the expression at the current token. A fault is reported where
it arose and gives zero. -/
def constant (symbols : SymbolTable) (s : Stream) : Int64 × Stream :=
  match advance.expression s with
  | ⟨e, s₁, _⟩ =>
    match e.eval symbols with
    | .ok value => (value, s₁)
    | .error ⟨fault, span⟩ => (0, s₁.reportAt span (.expression fault.message))

theorem load_constant_le (symbols : SymbolTable) (s : Stream) :
    (advance.constant symbols s).2.load ≤ s.load := by
  unfold constant
  split
  rename_i e s₁ h₁ _
  split <;> simpa using h₁

end Advance

end AsmExpand
