import AsmExpand.Run.Host
import AsmExpand.Run.Report

/-!
# Runs

A run makes the listing file, if one is asked for, and then reads, expands and
lists each input in turn. An input that cannot be read ends it: the listings
before stay written, and the reports before are lost with it.

`program` is the whole program: it carries out arguments, shows the diagnostics
once all inputs are listed, and gives the exit status. Two things are left out of it.
There is no log: the log level is read and checked with the other options, and the
lines that a log would add to the error output are not written. And the two outputs
take all that is written to them: a write that fails is one to a listing file
(`RunError.write`).
-/

namespace AsmExpand

/-- Why a run ends early. -/
inductive RunError where
  | config (e : ConfigError)
  | read (path : String) (fault : FileFault)
  | write (path : String) (fault : FileFault)
deriving DecidableEq

namespace RunError

def message : RunError → String
  | config e => e.message
  | read path fault => "Cannot read " ++ path ++ ": " ++ fault.message
  | write path fault => "Cannot write " ++ path ++ ": " ++ fault.message

end RunError

section

variable {m : Type → Type} [Monad m] [Host m]

/-- An action on a file, its fault turned into the end of the run. -/
def onFile {α : Type} (failure : FileFault → RunError) (action : m (Except FileFault α)) :
    ExceptT RunError m α := do
  match ← (action : ExceptT RunError m (Except FileFault α)) with
  | .ok a => return a
  | .error fault => throw (failure fault)

/-- The text of an input. -/
def readText (path : String) : ExceptT RunError m String := do
  let bytes ← onFile (.read path) (Host.read path)
  match Utf8.strict? bytes with
  | some text => return text
  | none => throw (.read path .notUtf8)

/-- Write a listing where the configuration wants it. -/
def Config.write (c : Config) (listing : String) : ExceptT RunError m Unit :=
  match c.outfile with
  | some path => onFile (.write path) (Host.append path listing)
  | none => ExceptT.lift (Host.print listing)

/-- Read, expand and list one input. -/
def Config.runInput (c : Config) (path : String) : ExceptT RunError m Report := do
  let source ← readText path
  let e := c.expand source
  c.write (e.listing path)
  return e.report path source

/-- Carry out a configuration. -/
def Config.run (c : Config) : ExceptT RunError m (List Report) := do
  match c.outfile with
  | some path => onFile (.write path) (Host.create path)
  | none => pure ()
  c.infiles.mapM c.runInput

/-- Carry out options. -/
def Options.run (o : Options) : ExceptT RunError m (List Report) :=
  match o.validate with
  | .ok c => c.run
  | .error e => throw (.config e)

/-- The answer to a request for the version. -/
def versionText : String := "tokfn 0.1\n"

/-- Carry out arguments; the result is the exit status. -/
def program (colour : Bool) (arguments : List String) : m UInt32 := do
  match Options.parse arguments with
  | .error .displayVersion =>
    Host.print versionText
    return 0
  | .error _ =>
    Host.printError "error: invalid arguments\n"
    return 2
  | .ok options =>
    match ← options.run.run with
    | .error e =>
      Host.printError (e.message ++ "\n")
      return 1
    | .ok reports =>
      let shown := reports.flatMap (Report.contexts colour)
      shown.forM fun text => Host.printError (text ++ "\n")
      return if shown.isEmpty then 0 else 1

end

end AsmExpand
