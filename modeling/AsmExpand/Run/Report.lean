import AsmExpand.CommandLine.Config
import AsmExpand.Listing.Printer

/-!
# Reports

What is left of an input once its listing is written: its diagnostics, and its
lines to show them with.
-/

namespace AsmExpand

structure Report where
  file : String
  diagnostics : List Diagnostic
  sourceLines : List String
deriving DecidableEq

namespace Report

def errorCount (r : Report) : Nat := r.diagnostics.length

/-- Every diagnostic with its source line. -/
def contexts (colour : Bool) (r : Report) : List String :=
  r.diagnostics.map fun d => d.formatWithContext (some r.sourceLines) colour

end Report

/-- The statements of a source, as the configuration asks for them. -/
def Config.expand (c : Config) (source : String) : Expansion :=
  if c.raw then expandSourceRaw c.settings.limits source else expandSource c.settings source

/-- The report on an expansion of a file. -/
def Expansion.report (e : Expansion) (file source : String) : Report where
  file := file
  diagnostics := e.diagnostics.toList.map fun d => { d with file := some file }
  sourceLines := splitLines source

end AsmExpand
