import AsmExpand.Text.Decimal
import AsmExpand.Text.Lines

/-!
# A source line with a column marked

Columns are byte columns, so a column may fall inside a character. Such a column
marks nothing, and neither does one inside the line when there is no colour to
mark it with. A column past the end of the line is shown by a caret either way.
-/

namespace AsmExpand

/-- A text in red on a terminal. -/
def red (s : String) : String := "\x1b[31m" ++ s ++ "\x1b[0m"

/-- The characters before and from a byte position, if a character starts there. -/
def splitAtByte? : Nat → List Char → Option (List Char × List Char)
  | 0, cs => some ([], cs)
  | _ + 1, [] => none
  | n + 1, c :: cs =>
    if c.utf8Size ≤ n + 1 then
      (splitAtByte? (n + 1 - c.utf8Size) cs).map fun (before, from_) => (c :: before, from_)
    else none

/-- A line with the character at a column marked; columns count from 1. -/
def highlight (line : String) (column : Option Nat) (colour : Bool) : String :=
  match column with
  | none | some 0 => line
  | some (at_ + 1) =>
    if line.utf8ByteSize ≤ at_ then line ++ (if colour then red "^" else "^")
    else if colour then
      match splitAtByte? at_ line.toList with
      | some (before, c :: after) =>
        String.ofList before ++ red (String.singleton c) ++ String.ofList after
      | _ => line
    else line

/-- The numbered line that a diagnostic shows. -/
def contextLine (lineNumber : Nat) (column : Option Nat) (lines : Option (List String))
    (colour : Bool) : String :=
  let shown :=
    match lines.bind (·[lineNumber - 1]?) with
    | some line => highlight line column colour
    | none => "<source unavailable>"
  padLeft 5 (Decimal.ofNat lineNumber) ++ " | " ++ shown

end AsmExpand
