/-!
# Decimal text

The one form in which numbers are written: no leading zeros, no separators, and
a minus sign for what is below zero.
-/

namespace AsmExpand.Decimal

/-- The character of a digit below ten. -/
def digit (n : Nat) : Char := Char.ofNat ('0'.toNat + n)

/-- The decimal digits of a number, most significant first. -/
def digits (n : Nat) : List Char :=
  if n < 10 then [digit n] else digits (n / 10) ++ [digit (n % 10)]

def ofNat (n : Nat) : String := String.ofList (digits n)

def ofInt : Int → String
  | .ofNat n => ofNat n
  | .negSucc n => "-" ++ ofNat (n + 1)

def ofInt64 (v : Int64) : String := ofInt v.toInt

end AsmExpand.Decimal
