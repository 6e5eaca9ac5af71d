import AsmExpand.Diagnostic.Highlight
import AsmExpand.Token.Basic

/-!
# Diagnostics

A diagnostic is a cause at a place. None of them stops the reading: each is
recorded, and whoever reports it goes on with something harmless in its stead.
They are kept in the order of reporting.
-/

namespace AsmExpand

/-- What was wrong. -/
inductive Cause where
  | unexpectedEndOfLine
  | stringConstantExpected
  | stringTooLong
  | rangeError
  | rightParenExpected
  | leftParenExpected
  | commaExpected
  | tooManyCharacters
  /-- The source is ill-formed: a fault of the scanner, or a block without an end. -/
  | malformed (message : String)
  /-- An expression has no value. -/
  | expression (message : String)
deriving DecidableEq

namespace Cause

def message : Cause → String
  | unexpectedEndOfLine => "Unexpected end of line"
  | stringConstantExpected => "String constant expected"
  | stringTooLong => "String constant too long"
  | rangeError => "Range error"
  | rightParenExpected => "')' expected"
  | leftParenExpected => "'(' expected"
  | commaExpected => "',' expected"
  | tooManyCharacters => "Too many characters"
  | malformed message => message
  | expression message => message

/-- A macro block whose end the source does not have. -/
def unclosedBlock : Cause := malformed "'.ENDMACRO' expected"

end Cause

structure Diagnostic where
  span : Span
  cause : Cause
  /-- The file it was found in, where that is known. -/
  file : Option String := none
deriving DecidableEq

namespace Diagnostic

/-- A diagnostic on one line. -/
def format (d : Diagnostic) : String :=
  Decimal.ofNat d.span.line ++ ":" ++ Decimal.ofNat d.span.colStart ++ ": ERROR - " ++
    d.cause.message

/-- Where a diagnostic is, as its heading says it. -/
def heading (d : Diagnostic) : String :=
  match d.file with
  | some file => file ++ ":" ++ Decimal.ofNat d.span.line ++ ": ERROR"
  | none => Decimal.ofNat d.span.line ++ ": ERROR"

/-- A diagnostic with its heading and the source line it is on. -/
def formatWithContext (d : Diagnostic) (lines : Option (List String)) (colour : Bool) : String :=
  d.heading ++ "\n" ++ contextLine d.span.line (some d.span.colStart) lines colour ++ "\n" ++
    "ERROR: " ++ d.cause.message

end Diagnostic

/-- Diagnostics in the order of reporting. -/
abbrev Diagnostics := Array Diagnostic

namespace Diagnostics

def report (ds : Diagnostics) (span : Span) (cause : Cause) : Diagnostics :=
  ds.push { span := span, cause := cause }

/-- The number of diagnostics with a cause. -/
def countOf (ds : Diagnostics) (cause : Cause) : Nat := ds.countP fun d => d.cause = cause

end Diagnostics

end AsmExpand
