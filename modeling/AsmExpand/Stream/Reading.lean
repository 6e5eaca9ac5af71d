import AsmExpand.Stream.Basic

/-!
# Reading by kind

The small steps of a parser on a stream: go on if the expected token is there
and report otherwise, end a statement, skip the rest of a line. They work for
every way of advancing. A separator is never skipped, so whatever goes wrong
inside a line, the next line starts where it should.
-/

namespace AsmExpand.Advance

variable (advance : Advance)

/-- Skip tokens until a separator is current. -/
def skipToSeparator (s : Stream) : Stream :=
  if _h : s.kind.isSeparator then s else skipToSeparator (advance s)
termination_by s.load
decreasing_by exact advance.load_lt_of_not_isSeparator (by simpa using _h)

/-- Go past a token of the expected kind; report its absence otherwise. The
answer says which of the two it was. -/
def consume (expected : Kind) (absent : Cause) (s : Stream) : Bool × Stream :=
  if s.kind = expected then (true, advance s) else (false, s.report absent)

def consumeLeftParen (s : Stream) : Bool × Stream :=
  advance.consume .leftParen .leftParenExpected s

def consumeRightParen (s : Stream) : Bool × Stream :=
  advance.consume .rightParen .rightParenExpected s

def consumeComma (s : Stream) : Bool × Stream :=
  advance.consume .comma .commaExpected s

/-- Go past the end of a statement. What stands before it is reported and
skipped, and the end is then current. -/
def consumeSeparator (s : Stream) : Stream :=
  match s.kind with
  | .eof => s
  | .sep => advance s
  | _ => advance.skipToSeparator (s.report .tooManyCharacters)

theorem load_skipToSeparator_le (s : Stream) : (advance.skipToSeparator s).load ≤ s.load := by
  fun_induction skipToSeparator advance s with
  | case1 => exact Nat.le_refl _
  | case2 s h ih => exact Nat.le_trans ih (advance.load_le s)

theorem load_consume_le (expected : Kind) (absent : Cause) (s : Stream) :
    (advance.consume expected absent s).2.load ≤ s.load := by
  unfold consume
  split
  · exact advance.load_le s
  · simp

theorem load_consumeSeparator_le (s : Stream) : (advance.consumeSeparator s).load ≤ s.load := by
  unfold consumeSeparator
  split
  · exact Nat.le_refl _
  · exact advance.load_le s
  · exact Nat.le_trans (advance.load_skipToSeparator_le _) (by simp)

theorem isSeparator_skipToSeparator (s : Stream) :
    (advance.skipToSeparator s).kind.isSeparator = true := by
  fun_induction skipToSeparator advance s with
  | case1 s h => exact h
  | case2 s h ih => exact ih

end AsmExpand.Advance
