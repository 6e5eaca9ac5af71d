import AsmExpand.Stream.Expansion

/-!
# Operations on a stream

What a user of a stream can do, as data: the operations, what each answers, and
what a sequence of them does. A guard runs operations in raw mode and leaves it
as it was found.
-/

namespace AsmExpand

inductive Operation where
  | next
  | constant
  | consume (expected : Kind) (absent : Cause)
  | consumeSeparator
  | skipToSeparator
  | report (cause : Cause)
  | push (tokens : List Token)
  | enterRaw
  | leaveRaw
  | symbol (name : String)
  | limits
  | guarded (operations : List Operation)

inductive Answer where
  | none
  | matched (yes : Bool)
  | value (v : Int64)
  | symbol (v : Option Int64)
  | limits (limits : Limits)
  /-- The answers of guarded operations, each with the stream after it. -/
  | steps (steps : List (Answer × Stream))

namespace Stream

variable (settings : Settings)

def consume (expected : Kind) (absent : Cause) (s : Stream) : Bool × Stream :=
  (Advance.full settings).consume expected absent s

def consumeSeparator (s : Stream) : Stream := (Advance.full settings).consumeSeparator s

/-- A line end is gone past. -/
theorem consumeSeparator_of_sep {s : Stream} (h : s.kind = .sep) :
    s.consumeSeparator settings = s.advance settings := by
  rw [consumeSeparator, Advance.consumeSeparator, h]
  rfl

/-- There is nothing behind the end of the input. -/
theorem consumeSeparator_of_eof {s : Stream} (h : s.kind = .eof) :
    s.consumeSeparator settings = s := by
  rw [consumeSeparator, Advance.consumeSeparator, h]

def skipToSeparator (s : Stream) : Stream := (Advance.full settings).skipToSeparator s

/-- The value of the constant expression at the current token. -/
def constant (s : Stream) : Int64 × Stream :=
  (Advance.full settings).constant settings.symbols s

mutual

/-- Do one operation. -/
def perform (op : Operation) (s : Stream) : Answer × Stream :=
  match op with
  | .next => (.none, s.advance settings)
  | .constant =>
    let (v, s') := s.constant settings
    (.value v, s')
  | .consume expected absent =>
    let (yes, s') := s.consume settings expected absent
    (.matched yes, s')
  | .consumeSeparator => (.none, s.consumeSeparator settings)
  | .skipToSeparator => (.none, s.skipToSeparator settings)
  | .report cause => (.none, s.report cause)
  | .push tokens => (.none, s.push tokens)
  | .enterRaw => (.none, s.enterRaw)
  | .leaveRaw => (.none, s.leaveRaw)
  | .symbol name => (.symbol (settings.symbols.find? name), s)
  | .limits => (.limits settings.limits, s)
  | .guarded ops =>
    let (steps, s') := performAll ops s.enterRaw
    (.steps steps, s'.leaveRaw)

/-- Do operations in order. -/
def performAll (ops : List Operation) (s : Stream) : List (Answer × Stream) × Stream :=
  match ops with
  | [] => ([], s)
  | op :: ops =>
    let step := perform op s
    let (steps, s') := performAll ops step.2
    (step :: steps, s')

end

end Stream

end AsmExpand
