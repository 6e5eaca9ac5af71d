import AsmExpand.Text.Utf8

/-!
# What a run needs from outside

A run reads files, makes one, and writes to two outputs. `Host` names these
actions and leaves open what carries them out, so that the same run can be done
on a real system and on a system that is only a value.
-/

namespace AsmExpand

/-- Why a file cannot be used. -/
inductive FileFault where
  | notFound
  | notFolder
  | isFolder
  | nameTooLong
  | nulInName
  | notUtf8
  /-- Anything else, in the system's words and with its number. -/
  | system (description : String)
deriving DecidableEq

namespace FileFault

def message : FileFault → String
  | notFound => "No such file or directory (os error 2)"
  | notFolder => "Not a directory (os error 20)"
  | isFolder => "Is a directory (os error 21)"
  | nameTooLong => "File name too long (os error 36)"
  | nulInName => "file name contained an unexpected NUL byte"
  | notUtf8 => "stream did not contain valid UTF-8"
  | system description => description

end FileFault

/-- The actions of a run. -/
class Host (m : Type → Type) where
  /-- The bytes of a file. -/
  read : String → m (Except FileFault (List Byte))
  /-- Make an empty file, in place of one that may be there. -/
  create : String → m (Except FileFault Unit)
  /-- Write at the end of a file. -/
  append : String → String → m (Except FileFault Unit)
  /-- Write to an output, which never fails. -/
  print : String → m Unit
  printError : String → m Unit

end AsmExpand
