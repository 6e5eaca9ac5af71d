import AsmExpand.Number.Digits

/-!
# Options

The arguments of the program, read from left to right. An option that takes a
value finds it attached (`-ifile`, `-i=file`, `--infile=file`) or in the next
argument, which must not look like an option; a single `-` does not. After `--`
nothing is an option any more, and since the program takes nothing but options,
nothing may follow.

An attached value is checked at once. A value of its own is checked when the
next option is met or the arguments end, so an argument that is no option at all
is refused before it.

Left out are the request for help (`-h`, `--help`), which is an unknown argument here,
arguments that are no text in UTF-8, and the words in which a refusal is explained: only
its kind is given (`UsageError`).
-/

namespace AsmExpand

inductive LogLevel where
  | error | warn | info | debug | trace
deriving DecidableEq

namespace LogLevel

/-- A level by its number, from the quietest on. -/
def ofNumber? : Nat → Option LogLevel
  | 1 => some error
  | 2 => some warn
  | 3 => some info
  | 4 => some debug
  | 5 => some trace
  | _ => none

/-- A level by its name in lower case. -/
def ofName? : List Char → Option LogLevel
  | ['e', 'r', 'r', 'o', 'r'] => some error
  | ['w', 'a', 'r', 'n'] => some warn
  | ['i', 'n', 'f', 'o'] => some info
  | ['d', 'e', 'b', 'u', 'g'] => some debug
  | ['t', 'r', 'a', 'c', 'e'] => some trace
  | _ => none

end LogLevel

/-- Why arguments are refused, or not carried out. -/
inductive UsageError where
  | unknownArgument
  /-- A value is missing, or is an empty path. -/
  | invalidValue
  /-- A value is not of the form the option asks for. -/
  | valueValidation
  /-- An option is given twice that may be given once. -/
  | argumentConflict
  /-- A flag has a value. -/
  | tooManyValues
  /-- The version is asked for instead. -/
  | displayVersion
deriving DecidableEq

inductive OptionName where
  | infile | outfile | define | maxStringLength | argumentLimit | raw | logLevel | version
deriving DecidableEq

namespace OptionName

def ofLong? (name : String) : Option OptionName :=
  match name with
  | "infile" => some infile
  | "outfile" => some outfile
  | "define" => some define
  | "max-string-len" => some maxStringLength
  | "arg-limit" => some argumentLimit
  | "raw" => some raw
  | "log-level" => some logLevel
  | "version" => some version
  | _ => none

def ofShort? : Char → Option OptionName
  | 'i' => some infile
  | 'o' => some outfile
  | 'D' => some define
  | 'V' => some version
  | _ => none

/-- Whether an option stands alone. -/
def isFlag : OptionName → Bool
  | raw | version => true
  | _ => false

end OptionName

/-- A size on the command line: decimal digits after at most a plus sign. -/
def size? (text : String) : Option Nat :=
  let digits := match text.toList with
    | '+' :: cs => cs
    | cs => cs
  (Number.natural? 10 digits).filter (· < UInt64.size)

def logLevel? (text : String) : Option LogLevel :=
  match size? text with
  | some n => LogLevel.ofNumber? n
  | none => LogLevel.ofName? (text.toList.map Char.toLower)

/-- What has been given so far. -/
structure Given where
  infiles : List String := []
  outfile : Option String := none
  defines : List String := []
  maxStringLength : Option Nat := none
  argumentLimit : Option Int64 := none
  raw : Bool := false
  logLevel : Option LogLevel := none
deriving DecidableEq

namespace Given

/-- Whether an option is given that may be given once. -/
def has (g : Given) : OptionName → Bool
  | .outfile => g.outfile.isSome
  | .maxStringLength => g.maxStringLength.isSome
  | .argumentLimit => g.argumentLimit.isSome
  | .raw => g.raw
  | .logLevel => g.logLevel.isSome
  | _ => false

/-- A parsed value, or the refusal of its text. -/
def parsed {α : Type} (v : Option α) : Except UsageError α :=
  match v with
  | some v => .ok v
  | none => .error .valueValidation

/-- A path; an empty one is none. -/
def path (value : String) : Except UsageError String :=
  if value.isEmpty then .error .invalidValue else .ok value

/-- Give an option with its value, empty for a flag. -/
def give (g : Given) (name : OptionName) (value : String) : Except UsageError Given :=
  if g.has name then .error .argumentConflict
  else
    match name with
    | .infile => (path value).map fun p => { g with infiles := g.infiles ++ [p] }
    | .outfile => (path value).map fun p => { g with outfile := some p }
    | .define => .ok { g with defines := g.defines ++ [value] }
    | .maxStringLength => (parsed (size? value)).map fun n => { g with maxStringLength := some n }
    | .argumentLimit =>
      (parsed (Number.signed? 10 value.toList)).map fun v => { g with argumentLimit := some v }
    | .raw => .ok { g with raw := true }
    | .logLevel => (parsed (logLevel? value)).map fun l => { g with logLevel := some l }
    | .version => .error .displayVersion

end Given

/-- The reader of arguments. -/
structure ArgumentReader where
  given : Given := {}
  /-- The last option, if its value is not attached, and the value once it is met. -/
  pending : Option (OptionName × Option String) := none
  /-- Whether options have been ended by `--`. -/
  ended : Bool := false
deriving DecidableEq

namespace ArgumentReader

/-- Give the option that is pending; it must have its value by now. -/
def settle (r : ArgumentReader) : Except UsageError ArgumentReader :=
  match r.pending with
  | none => .ok r
  | some (_, none) => .error .invalidValue
  | some (name, some value) =>
    (r.given.give name value).map fun given => { r with given := given, pending := none }

/-- Meet an option, with its attached value if it has one. -/
def meet (r : ArgumentReader) (name : OptionName) (attached : Option String) :
    Except UsageError ArgumentReader :=
  match name.isFlag, attached with
  | true, some _ => .error .tooManyValues
  | true, none => do
    let r ← r.settle
    return { r with given := ← r.given.give name "" }
  | false, some value => do
    let r ← r.settle
    return { r with given := ← r.given.give name value }
  | false, none => do
    let r ← r.settle
    return { r with pending := some (name, none) }

/-- A name and the value after its equals sign. -/
def splitValue (cs : List Char) : String × Option String :=
  let name := String.ofList (cs.takeWhile (· != '='))
  match cs.dropWhile (· != '=') with
  | [] => (name, none)
  | _ :: value => (name, some (String.ofList value))

/-- The value attached to an option of one letter, an equals sign before it or not. -/
def shortValue (cs : List Char) : Option String :=
  match cs with
  | [] => none
  | '=' :: value => some (String.ofList value)
  | value => some (String.ofList value)

/-- Meet an argument that is no option: the value that is due, or nothing known. -/
def meetValue (r : ArgumentReader) (value : String) : Except UsageError ArgumentReader :=
  match r.pending with
  | some (name, none) => .ok { r with pending := some (name, some value) }
  | _ => .error .unknownArgument

/-- Read one argument. -/
def next (r : ArgumentReader) (argument : String) : Except UsageError ArgumentReader :=
  if r.ended then .error .unknownArgument
  else
    match argument.toList with
    | ['-', '-'] => .ok { r with ended := true }
    | '-' :: '-' :: cs =>
      let (name, value) := splitValue cs
      match OptionName.ofLong? name with
      | some name => r.meet name value
      | none => .error .unknownArgument
    | '-' :: c :: cs =>
      match OptionName.ofShort? c with
      | some name => r.meet name (if name.isFlag then none else shortValue cs)
      | none => .error .unknownArgument
    | _ => r.meetValue argument

end ArgumentReader

/-- The options of the program. -/
structure Options where
  infiles : List String := []
  outfile : Option String := none
  defines : List String := []
  maxStringLength : Nat := 255
  argumentLimit : Int64 := 100
  raw : Bool := false
  logLevel : LogLevel := .warn
deriving DecidableEq

namespace Options

/-- What is given, and the rest as it is by default. -/
def ofGiven (g : Given) : Options where
  infiles := g.infiles
  outfile := g.outfile
  defines := g.defines
  maxStringLength := g.maxStringLength.getD 255
  argumentLimit := g.argumentLimit.getD 100
  raw := g.raw
  logLevel := g.logLevel.getD .warn

/-- The options that arguments give. -/
def parse (arguments : List String) : Except UsageError Options := do
  let r ← arguments.foldlM ArgumentReader.next {}
  let r ← r.settle
  return ofGiven r.given

end Options

end AsmExpand
