import AsmExpand.Feed
import AsmExpand.Symbols

/-!
# The token stream

A stream has one current token, the one a parser looks at, and a feed behind it.
It also counts how often raw mode was entered: while the count is not zero,
tokens pass through as they are.

`Stream.load` is what a stream has still to show, the current token included.
An `Advance` is a way to go to the next token that pays for what it shows: it
leaves a load no greater than what the feed held before. So going on from
anything but the end of the input lowers the load (`Advance.load_lt`), and
everything that reads tokens in a loop is written for *some* `Advance` and ends
for that reason. Functions expand by reading tokens themselves, which is how an
advance of one nesting depth is made from the advance of the depth below.
-/

namespace AsmExpand

/-- Bounds that the token functions respect. -/
structure Limits where
  /-- The greatest length of a string constant, in bytes. -/
  maxStringLength : Nat := 255
  /-- The greatest count or start argument. -/
  argumentLimit : Int64 := 100
deriving DecidableEq

/-- What reading a stream depends on apart from its tokens. -/
structure Settings where
  limits : Limits := {}
  symbols : SymbolTable := {}

structure Stream where
  feed : Feed
  current : Token := { kind := .sep }
  rawDepth : Nat := 0
  log : Diagnostics := #[]

namespace Stream

/-- A stream before its first token. -/
def ofScan (scan : Scan) : Stream := { feed := { scan := scan } }

def ofSource (source : String) : Stream := ofScan (.ofSource source)

/-- The kind of the current token. -/
def kind (s : Stream) : Kind := s.current.kind

def isRaw (s : Stream) : Bool := 0 < s.rawDepth

/-- Suspend the expansion of functions once more. -/
def enterRaw (s : Stream) : Stream := { s with rawDepth := s.rawDepth + 1 }

/-- Take back one suspension; without one, nothing changes. -/
def leaveRaw (s : Stream) : Stream := { s with rawDepth := s.rawDepth - 1 }

/-- Let a list of tokens come next. -/
def push (s : Stream) (ts : List Token) : Stream := { s with feed := s.feed.push ts }

/-- Record a cause at a place. -/
def reportAt (s : Stream) (span : Span) (cause : Cause) : Stream :=
  { s with log := s.log.report span cause }

/-- Record a cause at the current token. -/
def report (s : Stream) (cause : Cause) : Stream := s.reportAt s.current.span cause

/-- Take the next token of the feed as it is. -/
def fetch (settings : Settings) (s : Stream) : Stream :=
  let d := s.feed.next settings.limits.maxStringLength s.log
  { s with feed := d.feed, current := d.token, log := d.log }

/-- What a stream has still to show. -/
def load (s : Stream) : Nat := s.current.live + s.feed.size

@[simp] theorem load_reportAt (s : Stream) (span : Span) (cause : Cause) :
    (s.reportAt span cause).load = s.load := rfl

@[simp] theorem load_report (s : Stream) (cause : Cause) : (s.report cause).load = s.load := rfl

@[simp] theorem load_enterRaw (s : Stream) : s.enterRaw.load = s.load := rfl

@[simp] theorem load_leaveRaw (s : Stream) : s.leaveRaw.load = s.load := rfl

@[simp] theorem size_feed_push (s : Stream) (ts : List Token) :
    (s.push ts).feed.size = liveCount ts + s.feed.size := Feed.size_push ..

theorem load_fetch_le (settings : Settings) (s : Stream) : (s.fetch settings).load ≤ s.feed.size :=
  Feed.live_next_add_size_le ..

theorem size_le_load (s : Stream) : s.feed.size ≤ s.load := Nat.le_add_left ..

end Stream

/-- A way to the next token that pays for the tokens it shows. -/
structure Advance where
  step : Stream → Stream
  pays : ∀ s, (step s).load ≤ s.feed.size

namespace Advance

instance : CoeFun Advance fun _ => Stream → Stream := ⟨Advance.step⟩

/-- Take the tokens of the feed as they are. -/
def raw (settings : Settings) : Advance := ⟨Stream.fetch settings, Stream.load_fetch_le settings⟩

theorem load_le (advance : Advance) (s : Stream) : (advance s).load ≤ s.load :=
  Nat.le_trans (advance.pays s) s.size_le_load

theorem load_lt (advance : Advance) {s : Stream} (h : s.kind ≠ .eof) :
    (advance s).load < s.load := by
  have := advance.pays s
  have : s.load = 1 + s.feed.size := by rw [Stream.load, Token.live_of_kind_ne h]
  omega

theorem load_lt_of_not_isSeparator (advance : Advance) {s : Stream}
    (h : s.kind.isSeparator = false) : (advance s).load < s.load :=
  advance.load_lt (by intro e; simp [e, Kind.isSeparator] at h)

end Advance

end AsmExpand
