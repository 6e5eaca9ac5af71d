import AsmExpand.Number.Digits
import AsmExpand.Text.Blank

/-!
# Spellings of numbers

Two readers for two places. `scanned?` reads a number in a source: digits,
letters and underscores that start with a digit, where a final letter gives the
base. `argument?` reads a number on the command line: white space around it, a
minus sign in front, the bases of a source without the letter `d`, and prefixes
besides. Where a prefix and a final letter both apply, the prefix is tried
alone.

Underscores stand anywhere between digits and mean nothing.
-/

namespace AsmExpand.Number

def isBinary (c : Char) : Bool := c == '0' || c == '1'

def dropUnderscores (cs : List Char) : List Char := cs.filter (· != '_')

/-- The base that a final letter announces after the digits before it. `B` is a
hexadecimal digit as well, and announces base 2 only after binary digits. -/
def suffixBase? (digits : List Char) : Char → Option Nat
  | 'H' => some 16
  | 'B' => if digits.all isBinary then some 2 else none
  | 'O' => some 8
  | 'Q' => some 8
  | _ => none

/-- The base that a final letter announces in a source, where `D` is one too. -/
def scannedSuffixBase? (digits : List Char) : Char → Option Nat
  | 'D' => some 10
  | c => suffixBase? digits c

/-- The value of a number as a source spells it. -/
def scanned? (spelling : List Char) : Option Int64 :=
  let cs := dropUnderscores (spelling.map Char.toUpper)
  match cs.getLast?.bind (scannedSuffixBase? cs.dropLast) with
  | some base => unsigned? base cs.dropLast
  | none => unsigned? 10 cs

/-- The value of the digits after a prefix that gives the base. -/
def prefixed? (base : Nat) (digits : List Char) : Option Int64 :=
  unsigned? base (dropUnderscores digits)

/-- The value of a number on the command line, its minus sign taken off. -/
def magnitude? : List Char → Option Int64
  | [] => none
  | '$' :: cs => signed? 16 cs
  | '%' :: cs => signed? 2 cs
  | '0' :: 'x' :: cs => signed? 16 cs
  | '0' :: 'X' :: cs => signed? 16 cs
  | '0' :: 'b' :: cs => signed? 2 cs
  | '0' :: 'B' :: cs => signed? 2 cs
  | cs =>
    match cs.getLast?.bind fun c => suffixBase? cs.dropLast c.toUpper with
    | some base => signed? base cs.dropLast
    | none => signed? 10 cs

/-- The value of a number as the command line spells it. -/
def argument? (text : String) : Option Int64 :=
  match trim text.toList with
  | '-' :: cs => (magnitude? (dropUnderscores cs)).map fun v => -v
  | cs => magnitude? (dropUnderscores cs)

end AsmExpand.Number
