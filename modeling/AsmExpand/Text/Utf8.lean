import AsmExpand.Text.Byte

/-!
# UTF-8, with a lenient reader

`bytes` is the encoding of a text. `decode` reads bytes back and never refuses:
an ill-formed sequence becomes the replacement character, one for each *maximal*
part that some longer sequence could have continued. Hex escapes in a string
constant are the only way to write such bytes, and they are also a way to spell
a well-formed character byte by byte.

The reader is an automaton over single bytes. Its state is the sequence that is
still open: the payload bits read so far and the range each byte that is due has
to lie in. The ranges are those of the table of well-formed sequences, so
overlong forms, surrogates and values past the last code point are refused at
the earliest byte that shows them.
-/

namespace AsmExpand.Utf8

/-- The UTF-8 bytes of a text. -/
def bytes (s : String) : List Byte := s.toList.flatMap String.utf8EncodeChar

/-- What stands for an ill-formed sequence. -/
def replacement : Char := '\uFFFD'

/-- Bounds, both included, for one byte of a sequence. -/
structure Range where
  low : Byte
  high : Byte
deriving DecidableEq

def Range.holds (r : Range) (b : Byte) : Bool := r.low ≤ b && b ≤ r.high

/-- The bytes a continuation may be when the bytes before it do not narrow it. -/
def tailRange : Range := ⟨0x80, 0xBF⟩

/-- A sequence that has been started: its payload bits so far and the bytes due. -/
structure Partial where
  bits : Nat
  due : List Range
deriving DecidableEq

/-- What a first byte announces; `none` if no sequence starts with it. -/
def lead? (b : Byte) : Option Partial :=
  if b < 0x80 then some ⟨b.toNat, []⟩
  else if b < 0xC2 then none
  else if b < 0xE0 then some ⟨b.toNat - 0xC0, [tailRange]⟩
  else if b = 0xE0 then some ⟨0, [⟨0xA0, 0xBF⟩, tailRange]⟩
  else if b = 0xED then some ⟨0xD, [⟨0x80, 0x9F⟩, tailRange]⟩
  else if b < 0xF0 then some ⟨b.toNat - 0xE0, [tailRange, tailRange]⟩
  else if b = 0xF0 then some ⟨0, [⟨0x90, 0xBF⟩, tailRange, tailRange]⟩
  else if b < 0xF4 then some ⟨b.toNat - 0xF0, [tailRange, tailRange, tailRange]⟩
  else if b = 0xF4 then some ⟨4, [⟨0x80, 0x8F⟩, tailRange, tailRange]⟩
  else none

/-- The reader: the characters read, newest first, and the sequence still open. -/
structure Reader where
  read : List Char := []
  unfinished : Option Partial := none
deriving DecidableEq

namespace Reader

/-- Read the first byte of a sequence. -/
def start (r : Reader) (b : Byte) : Reader :=
  match lead? b with
  | none => { read := replacement :: r.read }
  | some ⟨bits, []⟩ => { read := Char.ofNat bits :: r.read }
  | some p => { read := r.read, unfinished := some p }

/-- Read one byte. A byte that does not continue the open sequence closes it as
ill-formed and is then read as a first byte. -/
def next (r : Reader) (b : Byte) : Reader :=
  match r.unfinished with
  | none => r.start b
  | some ⟨_, []⟩ => r.start b
  | some ⟨bits, range :: due⟩ =>
    if range.holds b then
      let bits := bits * 64 + b.toNat % 64
      if due.isEmpty then { read := Char.ofNat bits :: r.read }
      else { read := r.read, unfinished := some ⟨bits, due⟩ }
    else start { read := replacement :: r.read } b

/-- The characters read once the bytes have ended. -/
def finish (r : Reader) : List Char :=
  match r.unfinished with
  | none => r.read.reverse
  | some _ => (replacement :: r.read).reverse

end Reader

/-- The text that bytes denote, ill-formed sequences replaced. -/
def decode (bs : List Byte) : String :=
  String.ofList (bs.foldl Reader.next {}).finish

/-- The text that bytes encode, if they are well-formed: a text that was read
with a replacement in it does not encode to the same bytes. -/
def strict? (bs : List Byte) : Option String :=
  let s := decode bs
  if bytes s = bs then some s else none

end AsmExpand.Utf8
