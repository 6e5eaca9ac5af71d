import AsmExpand.Run.Basic

/-!
# The program on a real system
-/

namespace AsmExpand

/-- The number of a fault. Some actions give it negated. -/
def systemNumber (code : UInt32) : UInt32 := if code < 0x80000000 then code else -code

/-- A fault as the system describes it. -/
def FileFault.described (code : UInt32) (details : String) : FileFault :=
  .system (details.capitalize ++ " (os error " ++ Decimal.ofNat (systemNumber code).toNat ++ ")")

/-- The fault that an error of the system is. -/
def FileFault.ofError (e : IO.Error) : FileFault :=
  match e with
  | .noFileOrDirectory _ _ _ => .notFound
  | .inappropriateType _ code _ => if systemNumber code = 20 then .notFolder else .isFolder
  | .invalidArgument _ code details =>
    if systemNumber code = 36 then .nameTooLong else .described code details
  | .permissionDenied _ code details => .described code details
  | e => .system (toString e)

/-- Carry out an action on a file. -/
def attempt {α : Type} (action : IO α) : IO (Except FileFault α) := do
  try return .ok (← action)
  catch e => return .error (.ofError e)

instance : Host IO where
  read path := attempt do return (← IO.FS.readBinFile path).toList
  create path := attempt (IO.FS.writeFile path "")
  append path text := attempt do
    let handle ← IO.FS.Handle.mk path .append
    handle.putStr text
  print text := do
    let out ← IO.getStdout
    out.putStr text
    out.flush
  printError text := do
    let err ← IO.getStderr
    err.putStr text

end AsmExpand

def main (arguments : List String) : IO UInt32 := do
  let colour := (← IO.getEnv "NO_COLOR").isNone
  AsmExpand.program colour arguments
