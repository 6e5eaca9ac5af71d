import AsmExpand.Text.Decimal
import AsmExpand.Token.Basic

/-!
# Tokens as source text

`Token.source` writes one token in the form the scanner reads, and `render`
joins a list of them. Names and keywords are written as they were read, numbers
in decimal, strings quoted with every character escaped that would end them or
could not be seen.

One blank stands between two tokens, except before what closes or separates
(`)`, `,`, `:`) and after what opens (`(`, `#`, a token function).
-/

namespace AsmExpand

namespace Operator

/-- The spelling of an operator; of two spellings, the one it is listed with. -/
def source : Operator → String
  | plus => "+" | minus => "-" | multiply => "*" | power => "**" | divide => "/" | modulo => "%"
  | shiftLeft => "<<" | shiftRight => ">>" | bitNot => "~" | logicNot => "!"
  | bitAnd => "&" | bitOr => "|" | bitXor => "^"
  | logicAnd => "&&" | logicOr => "||" | logicXor => "^^"
  | eq => "=" | ne => "<>" | ge => ">=" | gt => ">" | le => "<=" | lt => "<"

end Operator

namespace TokenFunction

/-- The keyword of a token function. -/
def source : TokenFunction → String
  | concat => ".CONCAT" | left => ".LEFT" | mid => ".MID" | right => ".RIGHT" | string => ".STRING"

end TokenFunction

/-- A character inside quotes. -/
def escapeChar : Char → List Char
  | '"' => ['\\', '"']
  | '\\' => ['\\', '\\']
  | '\n' => ['\\', 'n']
  | '\r' => ['\\', 'r']
  | '\t' => ['\\', 't']
  | '\x00' => ['\\', '0']
  | c => [c]

/-- A text as a string constant. -/
def quote (s : String) : String :=
  String.ofList ('"' :: s.toList.flatMap escapeChar ++ ['"'])

namespace Token

/-- A token as a source spells it. Separators have no text. -/
def source (t : Token) : String :=
  match t.kind with
  | .sep | .eof => ""
  | .leftParen => "("
  | .rightParen => ")"
  | .comma => ","
  | .colon => ":"
  | .hash => "#"
  | .question => "?"
  | .ident | .directive => t.text
  | .text => quote t.text
  | .int => Decimal.ofInt64 (t.int?.getD 0)
  | .operator op => op.source
  | .macroStart => ".MACRO"
  | .macroEnd => ".ENDMACRO"
  | .call f => f.source

end Token

namespace Kind

/-- Kinds that follow the token before them without a blank. -/
def attaches : Kind → Bool
  | comma | rightParen | colon => true
  | _ => false

/-- Kinds that the token after them follows without a blank. -/
def glues : Kind → Bool
  | leftParen | hash | call _ => true
  | _ => false

end Kind

/-- The texts of tokens, each after its blank; `glued` if there is none to come. -/
def renderFrom (glued : Bool) : List Token → List String
  | [] => []
  | t :: ts =>
    let blank := if glued || t.kind.attaches then "" else " "
    (blank ++ t.source) :: renderFrom t.kind.glues ts

/-- Tokens as a line of source text. -/
def render (ts : List Token) : String := String.join (renderFrom true ts)

end AsmExpand
