import AsmExpand.CommandLine.Options
import AsmExpand.Number.Spelling
import AsmExpand.Stream.Basic
import AsmExpand.Text.Utf8

/-!
# Configurations

Options that make sense together: there is something to read, one listing file
has one input, the limits leave room for something, and every definition gives a
new name a number. The first thing wrong is the one reported, in this order and
with the definitions in theirs.
-/

namespace AsmExpand

/-- Why options make no configuration. -/
inductive ConfigError where
  | noInput
  | sharedOutfile
  | zeroStringLength
  | negativeLimit
  | invalidValue (definition : String)
  | invalidName (definition : String)
  | duplicate (name : String)
deriving DecidableEq

namespace ConfigError

def message : ConfigError → String
  | noInput => "No input files specified. Use -i/--infile"
  | sharedOutfile => "-o/--outfile is not allowed with multiple inputs"
  | zeroStringLength => "--max-string-len must be at least 1"
  | negativeLimit => "--arg-limit must not be negative"
  | invalidValue definition => "Invalid value in -D/--define: " ++ definition
  | invalidName definition => "Invalid name in -D/--define: " ++ definition
  | duplicate name => "Duplicate -D/--define: " ++ name

end ConfigError

/-- Whether a text is a name as a source spells one. -/
def isName (text : String) : Bool :=
  match Utf8.bytes text with
  | [] => false
  | b :: bs => b.startsName && bs.all (·.continuesName)

/-- The name and the value of a definition `NAME[=VALUE]`; without a value it is 1. -/
def parseDefinition (definition : String) : Except ConfigError (String × Int64) :=
  let (name, value) := ArgumentReader.splitValue definition.toList
  match value.elim (some 1) Number.argument? with
  | none => .error (.invalidValue definition)
  | some v => if isName name then .ok (name, v) else .error (.invalidName definition)

/-- The symbols of definitions, none of them defined twice. -/
def defineAll (symbols : SymbolTable) : List String → Except ConfigError SymbolTable
  | [] => .ok symbols
  | definition :: rest =>
    match parseDefinition definition with
    | .error e => .error e
    | .ok (name, value) =>
      match symbols.add? name value with
      | none => .error (.duplicate name)
      | some symbols => defineAll symbols rest

structure Config where
  infiles : List String
  outfile : Option String
  settings : Settings
  raw : Bool

/-- The configuration that options make. -/
def Options.validate (o : Options) : Except ConfigError Config :=
  if o.infiles.isEmpty then .error .noInput
  else if o.outfile.isSome ∧ 1 < o.infiles.length then .error .sharedOutfile
  else if o.maxStringLength = 0 then .error .zeroStringLength
  else if o.argumentLimit < 0 then .error .negativeLimit
  else
    match defineAll {} o.defines with
    | .error e => .error e
    | .ok symbols =>
      .ok {
        infiles := o.infiles
        outfile := o.outfile
        settings := { limits := ⟨o.maxStringLength, o.argumentLimit⟩, symbols := symbols }
        raw := o.raw }

end AsmExpand
