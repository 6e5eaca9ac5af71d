import AsmExpand.Lexer.Quoted
import AsmExpand.Number.Spelling
import AsmExpand.Text.Utf8
import AsmExpand.Token.Basic

/-!
# Lexemes

A lexeme is what the scanner reads where a line goes on with something other
than blanks, a comment or its end: a token without its place, or a fault, and
the number of bytes it takes. That number is never zero, so it is kept as the
number of bytes *after the first*.

A lexeme depends on the bytes from its start on, and only in one case on what
stands to its left: `%` starts a binary constant where an operand may begin and
is an operator elsewhere. `Left` is all that this question needs.
-/

namespace AsmExpand

/-- Why bytes are not a token. -/
inductive ScanFault where
  | illegalCharacter
  | illegalHexConstant
  | illegalDigits
  | illegalCharConstant
  | badHexEscape
  | unterminated (read : String)
deriving DecidableEq

namespace ScanFault

def message : ScanFault → String
  | illegalCharacter => "Illegal character"
  | illegalHexConstant => "Illegal character in hex constant"
  | illegalDigits => "Illegal character in constant"
  | illegalCharConstant => "Illegal character constant"
  | badHexEscape => "Bad hex escape in string"
  | unterminated read => "Unterminated string: " ++ read

end ScanFault

/-- What stands to the left on a line. -/
structure Left where
  /-- The nearest byte that is not blank. -/
  mark : Option Byte := none
  /-- Whether the byte right before is blank. -/
  spaced : Bool := false
deriving DecidableEq

namespace Left

/-- The view to the left after one more byte. -/
def push (left : Left) (b : Byte) : Left :=
  if b.isBlank then { left with spaced := true } else { mark := some b, spaced := false }

/-- The punctuation after which an operand begins. -/
def opensOperand (b : Byte) : Bool :=
  match b.toChar with
  | '(' | ',' | '+' | '-' | '*' | '/' | '%' | '&' | '|' | '^' | '~' | '!' | '<' | '>' | '=' | '?'
  | ':' | '#' => true
  | _ => false

/-- An operand may begin at the start of a line, after punctuation that opens
one, and after white space that follows a word. -/
def operandMayBegin (left : Left) : Bool :=
  match left.mark with
  | none => true
  | some b => opensOperand b || (left.spaced && b.continuesName)

end Left

structure Lexeme where
  reading : Except ScanFault (Kind × Option Literal)
  /-- The number of bytes after the first. -/
  extra : Nat := 0

namespace Lexeme

def width (x : Lexeme) : Nat := x.extra + 1

def fault (f : ScanFault) (extra : Nat := 0) : Lexeme := ⟨.error f, extra⟩

def plain (kind : Kind) (extra : Nat := 0) : Lexeme := ⟨.ok (kind, none), extra⟩

/-- A constant or name with its text. -/
def withText (kind : Kind) (s : String) (extra : Nat) : Lexeme :=
  ⟨.ok (kind, some (.text s)), extra⟩

/-- An integer constant, if its digits denote a word. -/
def ofInt? (v : Option Int64) (extra : Nat) : Lexeme :=
  match v with
  | some v => ⟨.ok (.int, some (.int v)), extra⟩
  | none => fault .illegalDigits extra

/-- ASCII bytes as characters. -/
def chars (bs : List Byte) : List Char := bs.map Byte.toChar

/-- A name: its first byte and what continues it. -/
def name (b : Byte) (rest : List Byte) : Lexeme :=
  let tail := rest.takeWhile (·.continuesName)
  withText .ident (String.ofList (chars (b :: tail))) tail.length

/-- A number that starts with a digit. -/
def number (b : Byte) (rest : List Byte) : Lexeme :=
  let tail := rest.takeWhile (·.continuesNumber)
  ofInt? (Number.scanned? (chars (b :: tail))) tail.length

/-- A number after a prefix that gives its base. -/
def prefixedNumber (base : Nat) (isDigit : Byte → Bool) (rest : List Byte) : Lexeme :=
  let digits := rest.takeWhile fun b => isDigit b || b == .ofChar '_'
  ofInt? (Number.prefixed? base (chars digits)) digits.length

/-- The kind of a dot keyword in upper case, its dot left out. -/
def keywordKind (word : String) : Kind :=
  match word with
  | "CONCAT" => .call .concat
  | "LEFT" => .call .left
  | "MID" => .call .mid
  | "RIGHT" => .call .right
  | "STRING" => .call .string
  | "MACRO" | "MAC" => .macroStart
  | "ENDMACRO" | "ENDMAC" => .macroEnd
  | _ => .directive

/-- A dot keyword, in either case. Directives keep their spelling, in upper case. -/
def keyword (rest : List Byte) : Lexeme :=
  match rest with
  | [] => fault .illegalCharacter
  | b :: _ =>
    if b.startsKeyword then
      let word := rest.takeWhile (·.continuesName)
      let upper := (chars word).map Char.toUpper
      match keywordKind (String.ofList upper) with
      | .directive => withText .directive (String.ofList ('.' :: upper)) word.length
      | kind => plain kind word.length
    else fault .illegalCharacter

/-- The fault of a quoted constant that is not closed. -/
def unclosed (quote : Byte) (rest : List Byte) (q : Quoted) : Lexeme :=
  match q.ending with
  | .badEscape => fault .badHexEscape q.width
  | _ => fault (.unterminated (Utf8.decode (quote :: rest.take q.width))) q.width

/-- A string constant: the text that its bytes denote. -/
def string (rest : List Byte) : Lexeme :=
  let q := Quoted.read (.ofChar '"') rest
  match q.ending with
  | .closed => withText .text (Utf8.decode q.value) q.width
  | _ => unclosed (.ofChar '"') rest q

/-- A character constant: the value of its one byte. -/
def character (rest : List Byte) : Lexeme :=
  let q := Quoted.read (.ofChar '\'') rest
  match q.ending, q.value with
  | .closed, [b] => ⟨.ok (.int, some (.int (Int64.ofNat b.toNat))), q.width⟩
  | .closed, _ => fault .illegalCharConstant q.width
  | _, _ => unclosed (.ofChar '\'') rest q

/-- Punctuation and operators, of one character or of two. -/
def punctuation (c next : Char) : Lexeme :=
  match c, next with
  | ',', _ => plain .comma
  | ':', _ => plain .colon
  | '#', _ => plain .hash
  | '?', _ => plain .question
  | '(', _ => plain .leftParen
  | ')', _ => plain .rightParen
  | '+', _ => plain (.operator .plus)
  | '-', _ => plain (.operator .minus)
  | '*', '*' => plain (.operator .power) 1
  | '*', _ => plain (.operator .multiply)
  | '/', _ => plain (.operator .divide)
  | '%', _ => plain (.operator .modulo)
  | '~', _ => plain (.operator .bitNot)
  | '=', '=' => plain (.operator .eq) 1
  | '=', _ => plain (.operator .eq)
  | '!', '=' => plain (.operator .ne) 1
  | '!', _ => plain (.operator .logicNot)
  | '&', '&' => plain (.operator .logicAnd) 1
  | '&', _ => plain (.operator .bitAnd)
  | '|', '|' => plain (.operator .logicOr) 1
  | '|', _ => plain (.operator .bitOr)
  | '^', '^' => plain (.operator .logicXor) 1
  | '^', _ => plain (.operator .bitXor)
  | '<', '<' => plain (.operator .shiftLeft) 1
  | '<', '=' => plain (.operator .le) 1
  | '<', '>' => plain (.operator .ne) 1
  | '<', _ => plain (.operator .lt)
  | '>', '>' => plain (.operator .shiftRight) 1
  | '>', '=' => plain (.operator .ge) 1
  | '>', _ => plain (.operator .gt)
  | _, _ => fault .illegalCharacter

/-- Whether bytes go on with a digit. -/
def startsWith (isDigit : Byte → Bool) (rest : List Byte) : Bool :=
  match rest with
  | [] => false
  | b :: _ => isDigit b

/-- The lexeme that starts with `b` and may use the bytes after it. -/
def read (left : Left) (b : Byte) (rest : List Byte) : Lexeme :=
  if b.startsName then name b rest
  else if b.isDigit then number b rest
  else
    match b.toChar with
    | '"' => string rest
    | '\'' => character rest
    | '.' => keyword rest
    | '$' =>
      if startsWith Byte.isHexDigit rest then prefixedNumber 16 Byte.isHexDigit rest
      else fault .illegalHexConstant
    | '%' =>
      if startsWith Byte.isBinaryDigit rest && left.operandMayBegin then
        prefixedNumber 2 Byte.isBinaryDigit rest
      else plain (.operator .modulo)
    | c => punctuation c (rest.head?.elim '\x00' Byte.toChar)

end Lexeme

end AsmExpand
