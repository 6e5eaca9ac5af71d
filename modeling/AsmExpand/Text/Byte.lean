/-!
# Bytes of a source text

Source text is read byte by byte, so every class of the lexical grammar is a
class of bytes. All of them are ASCII classes: no byte of a multi-byte
character belongs to any, which is why such a character is never part of a name
or a number and can only stand inside quotes and comments.
-/

namespace AsmExpand

/-- A byte of a source text. -/
abbrev Byte := UInt8

namespace Byte

/-- The byte of an ASCII character. -/
abbrev ofChar (c : Char) : Byte := c.toUInt8

/-- The character whose code point is the byte. -/
def toChar (b : Byte) : Char := Char.ofNat b.toNat

def isUpperLetter (b : Byte) : Bool := ofChar 'A' ≤ b && b ≤ ofChar 'Z'

def isLowerLetter (b : Byte) : Bool := ofChar 'a' ≤ b && b ≤ ofChar 'z'

def isLetter (b : Byte) : Bool := isUpperLetter b || isLowerLetter b

def isDigit (b : Byte) : Bool := ofChar '0' ≤ b && b ≤ ofChar '9'

/-- A digit of base 16, its letters in either case. -/
def isHexDigit (b : Byte) : Bool :=
  isDigit b || (ofChar 'A' ≤ b && b ≤ ofChar 'F') || (ofChar 'a' ≤ b && b ≤ ofChar 'f')

def isBinaryDigit (b : Byte) : Bool := b == ofChar '0' || b == ofChar '1'

/-- A name starts with a letter, an underscore, or `@` for a cheap local. -/
def startsName (b : Byte) : Bool := isLetter b || b == ofChar '_' || b == ofChar '@'

/-- A name goes on with what may start one, and with digits. -/
def continuesName (b : Byte) : Bool := startsName b || isDigit b

/-- The word after a dot starts with a letter. -/
def startsKeyword (b : Byte) : Bool := isLetter b

/-- A number starts with a digit and goes on with digits, letters and underscores. -/
def continuesNumber (b : Byte) : Bool := isLetter b || isDigit b || b == ofChar '_'

/-- Horizontal white space. A newline is not blank: it separates statements. -/
def isBlank (b : Byte) : Bool := b == ofChar ' ' || b == ofChar '\t' || b == ofChar '\r'

def isNewline (b : Byte) : Bool := b == ofChar '\n'

/-- Comments and quoted constants stop before a newline, and before a NUL byte as well. -/
def endsLine (b : Byte) : Bool := isNewline b || b == 0

/-- The value of a digit of base 16. -/
def hexValue (b : Byte) : Byte :=
  if isDigit b then b - ofChar '0'
  else if isLowerLetter b then b - ofChar 'a' + 10
  else b - ofChar 'A' + 10

/-! ## Classes as ranges -/

theorem isUpperLetter_iff (b : Byte) : b.isUpperLetter = true ↔ 65 ≤ b.toNat ∧ b.toNat ≤ 90 := by
  rw [isUpperLetter, Bool.and_eq_true, decide_eq_true_iff, decide_eq_true_iff,
    UInt8.le_iff_toNat_le, UInt8.le_iff_toNat_le]
  rfl

theorem isLowerLetter_iff (b : Byte) : b.isLowerLetter = true ↔ 97 ≤ b.toNat ∧ b.toNat ≤ 122 := by
  rw [isLowerLetter, Bool.and_eq_true, decide_eq_true_iff, decide_eq_true_iff,
    UInt8.le_iff_toNat_le, UInt8.le_iff_toNat_le]
  rfl

theorem isDigit_iff (b : Byte) : b.isDigit = true ↔ 48 ≤ b.toNat ∧ b.toNat ≤ 57 := by
  rw [isDigit, Bool.and_eq_true, decide_eq_true_iff, decide_eq_true_iff, UInt8.le_iff_toNat_le,
    UInt8.le_iff_toNat_le]
  rfl

theorem isLetter_iff (b : Byte) : b.isLetter = true ↔
    65 ≤ b.toNat ∧ b.toNat ≤ 90 ∨ 97 ≤ b.toNat ∧ b.toNat ≤ 122 := by
  rw [isLetter, Bool.or_eq_true, isUpperLetter_iff, isLowerLetter_iff]

theorem startsName_iff (b : Byte) : b.startsName = true ↔
    (65 ≤ b.toNat ∧ b.toNat ≤ 90 ∨ 97 ≤ b.toNat ∧ b.toNat ≤ 122) ∨ b.toNat = 95 ∨ b.toNat = 64 := by
  rw [startsName, Bool.or_eq_true, Bool.or_eq_true, isLetter_iff, beq_iff_eq, beq_iff_eq,
    ← UInt8.toNat_inj, ← UInt8.toNat_inj, or_assoc]
  rfl

theorem continuesName_iff (b : Byte) : b.continuesName = true ↔
    ((65 ≤ b.toNat ∧ b.toNat ≤ 90 ∨ 97 ≤ b.toNat ∧ b.toNat ≤ 122) ∨ b.toNat = 95 ∨ b.toNat = 64) ∨
      48 ≤ b.toNat ∧ b.toNat ≤ 57 := by
  rw [continuesName, Bool.or_eq_true, startsName_iff, isDigit_iff]

theorem isBlank_iff (b : Byte) :
    b.isBlank = true ↔ (b.toNat = 32 ∨ b.toNat = 9) ∨ b.toNat = 13 := by
  rw [isBlank, Bool.or_eq_true, Bool.or_eq_true, beq_iff_eq, beq_iff_eq, beq_iff_eq,
    ← UInt8.toNat_inj, ← UInt8.toNat_inj, ← UInt8.toNat_inj]
  rfl

theorem isNewline_iff (b : Byte) : b.isNewline = true ↔ b.toNat = 10 := by
  rw [isNewline, beq_iff_eq, ← UInt8.toNat_inj]
  rfl

end Byte

/-- The text with its ASCII letters in upper case. -/
def upperCase (s : String) : String := String.ofList (s.toList.map Char.toUpper)

end AsmExpand
