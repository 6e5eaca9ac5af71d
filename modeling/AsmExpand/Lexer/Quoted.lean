import AsmExpand.Text.Byte

/-!
# Quoted constants

A quoted constant runs to the next quote of its own kind on the same line. A
backslash takes the byte after it out of its role: a few letters stand for
control characters, `x` and two hexadecimal digits for any byte at all, and
every other byte for itself.

Reading stops in one of three ways, and each says how many bytes were used up.
Without a closing quote the byte that ends the line is left in place. After a
faulty hex escape nothing on the line can be trusted, so all of it is skipped.
-/

namespace AsmExpand

/-- How a quoted constant ends. -/
inductive QuotedEnd where
  | closed
  | unterminated
  | badEscape
deriving DecidableEq

/-- What stands after an opening quote. -/
structure Quoted where
  /-- The bytes the constant denotes. -/
  value : List Byte
  /-- The number of bytes read after the opening quote. -/
  width : Nat
  ending : QuotedEnd
deriving DecidableEq

namespace Quoted

/-- A constant that starts with one more byte, written in `width` bytes. -/
def cons (b : Byte) (width : Nat) (q : Quoted) : Quoted :=
  { q with value := b :: q.value, width := width + q.width }

/-- The byte that a backslash and `b` stand for, `x` apart. -/
def escaped (b : Byte) : Byte :=
  match b.toChar with
  | 'n' => .ofChar '\n'
  | 'r' => .ofChar '\r'
  | 't' => .ofChar '\t'
  | '0' => 0
  | _ => b

/-- Read what stands after an opening quote. -/
def read (quote : Byte) : List Byte → Quoted
  | [] => ⟨[], 0, .unterminated⟩
  | b :: bs =>
    if b.endsLine then ⟨[], 0, .unterminated⟩
    else if b = quote then ⟨[], 1, .closed⟩
    else if b = .ofChar '\\' then
      match bs with
      | [] => ⟨[], 1, .unterminated⟩
      | e :: rest =>
        if e.endsLine then ⟨[], 1, .unterminated⟩
        else if e = .ofChar 'x' then
          match rest with
          | high :: low :: more =>
            if high.isHexDigit && low.isHexDigit then
              (read quote more).cons (high.hexValue * 16 + low.hexValue) 4
            else ⟨[], 2 + (rest.takeWhile (!·.endsLine)).length, .badEscape⟩
          | _ => ⟨[], 2 + (rest.takeWhile (!·.endsLine)).length, .badEscape⟩
        else (read quote rest).cons (escaped e) 2
    else (read quote bs).cons b 1

end Quoted

end AsmExpand
