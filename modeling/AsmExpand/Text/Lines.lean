/-!
# Lines of a text, and columns of numbers

`splitLines` cuts a text after each newline. A carriage return right before the
newline belongs to the line's end; one at the very end of the text, where no
newline follows, stays. The text after the last newline is a line only if there
is any.
-/

namespace AsmExpand

/-- The lines cut off so far, and the one being read, its last character first. -/
structure LineCutter where
  done : Array String := #[]
  line : List Char := []

namespace LineCutter

/-- A line without the carriage return it ends in, if it does. -/
def dropReturn : List Char → List Char
  | '\r' :: line => line
  | line => line

def next (cut : LineCutter) (c : Char) : LineCutter :=
  if c = '\n' then { done := cut.done.push (String.ofList (dropReturn cut.line).reverse) }
  else { cut with line := c :: cut.line }

def finish (cut : LineCutter) : List String :=
  if cut.line.isEmpty then cut.done.toList
  else (cut.done.push (String.ofList cut.line.reverse)).toList

end LineCutter

/-- The lines of a text, without what ends them. -/
def splitLines (text : String) : List String :=
  (text.toList.foldl LineCutter.next {}).finish

/-- The text with blanks in front, so that it takes `width` characters if it fits. -/
def padLeft (width : Nat) (text : String) : String :=
  String.ofList (List.replicate (width - text.length) ' ') ++ text

end AsmExpand
