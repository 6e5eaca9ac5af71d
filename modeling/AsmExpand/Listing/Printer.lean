import AsmExpand.Listing.Statement
import AsmExpand.Text.Lines

/-!
# The listing

A listing is a heading of three lines, a row for each statement, an empty line
and a line of counts. A row has the number of the source line, right-aligned in
four columns, the mark `R` if the statement was read with expansion suspended,
and the statement itself.
-/

namespace AsmExpand.Listing

def header (title : String) : String :=
  title ++ "\nLINE  M  SOURCE\n----  -  ------\n"

def row (l : Line) : String :=
  padLeft 4 (Decimal.ofNat l.line) ++ "  " ++ (if l.raw then "R" else " ") ++ "  " ++ l.text ++ "\n"

def footer (lines errors : Nat) : String :=
  "\nLines: " ++ Decimal.ofNat lines ++ "  Errors: " ++ Decimal.ofNat errors ++ "\n"

/-- The listing of some rows under a title, with the counts given. -/
def print (title : String) (rows : List Line) (lines errors : Nat) : String :=
  header title ++ String.join (rows.map row) ++ footer lines errors

end AsmExpand.Listing

namespace AsmExpand

/-- The listing of an expansion. -/
def Expansion.listing (e : Expansion) (title : String) : String :=
  Listing.print title e.lines e.lines.length e.diagnostics.size

end AsmExpand
