/-!
# Digits in a base

Values are 64-bit words. A digit string denotes a number of any size, and a
reader refuses the ones that do not fit a word instead of wrapping them round:
`natural?` reads the number, `word?` is the only place where it is cut to size.

`signed?` takes one sign in front of the digits. Which spellings may come to it
is decided where spellings are read.
-/

namespace AsmExpand.Number

/-- The value of a digit of base 36, its letters in either case. -/
def digitValue? (c : Char) : Option Nat :=
  if '0' ≤ c ∧ c ≤ '9' then some (c.toNat - '0'.toNat)
  else if 'A' ≤ c ∧ c ≤ 'Z' then some (c.toNat - 'A'.toNat + 10)
  else if 'a' ≤ c ∧ c ≤ 'z' then some (c.toNat - 'a'.toNat + 10)
  else none

/-- The value of a digit of the base. -/
def digit? (base : Nat) (c : Char) : Option Nat :=
  (digitValue? c).filter (· < base)

/-- The number that digits of the base denote, read on from `start`. -/
def naturalFrom? (base start : Nat) : List Char → Option Nat
  | [] => some start
  | c :: cs => (digit? base c).bind fun d => naturalFrom? base (start * base + d) cs

/-- The number that at least one digit of the base denotes. -/
def natural? (base : Nat) (cs : List Char) : Option Nat :=
  if cs.isEmpty then none else naturalFrom? base 0 cs

/-- An integer as a word, if it fits. -/
def word? (i : Int) : Option Int64 :=
  if Int64.minValue.toInt ≤ i ∧ i ≤ Int64.maxValue.toInt then some (Int64.ofInt i) else none

/-- The word that digits without a sign denote. -/
def unsigned? (base : Nat) (cs : List Char) : Option Int64 :=
  (natural? base cs).bind fun n => word? n

/-- The word that digits after at most one sign denote. -/
def signed? (base : Nat) : List Char → Option Int64
  | '-' :: cs => (natural? base cs).bind fun n => word? (-n)
  | '+' :: cs => unsigned? base cs
  | cs => unsigned? base cs

end AsmExpand.Number
