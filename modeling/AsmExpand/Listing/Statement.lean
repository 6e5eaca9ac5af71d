import AsmExpand.Stream.Operation
import AsmExpand.Token.Printer

/-!
# Statements and macro blocks

A source is read statement by statement, a statement being the tokens up to a
separator. Statements of a macro block are read in raw mode, from the `.MACRO`
that opens it to the `.ENDMACRO` that closes it. Blocks nest, and the raw depth
of the stream is the number of blocks that are open: opening one enters raw mode
and closing one leaves it. A block still open at the end of the input is
reported there, once for each.

A statement without tokens is not listed.
-/

namespace AsmExpand

/-- A statement as it was read. -/
structure Line where
  line : Nat
  /-- Read with expansion suspended. -/
  raw : Bool
  tokens : List Token
deriving DecidableEq

namespace Line

def text (l : Line) : String := render l.tokens

end Line

namespace Stream

variable (settings : Settings)

/-- The tokens up to the separator that ends the statement, which is then current. -/
def statement (s : Stream) : List Token × Stream :=
  if _h : s.kind.isSeparator then ([], s)
  else
    let (ts, s') := statement (s.advance settings)
    (s.current :: ts, s')
termination_by s.load
decreasing_by exact (Advance.full settings).load_lt_of_not_isSeparator (by simpa using _h)

theorem load_statement_le (s : Stream) : (s.statement settings).2.load ≤ s.load := by
  fun_induction statement settings s with
  | case1 => exact Nat.le_refl _
  | case2 s h ts s' hs ih =>
    rw [hs] at ih
    exact Nat.le_trans ih ((Advance.full settings).load_le s)

theorem load_statement_lt {s : Stream} (h : s.kind.isSeparator = false) :
    (s.statement settings).2.load < s.load := by
  rw [statement, dif_neg (by simp [h])]
  exact Nat.lt_of_le_of_lt (load_statement_le settings _)
    ((Advance.full settings).load_lt_of_not_isSeparator h)

theorem isSeparator_statement (s : Stream) : (s.statement settings).2.kind.isSeparator = true := by
  fun_induction statement settings s with
  | case1 s h => exact h
  | case2 s h ts s' hs ih => rwa [hs] at ih

/-- A statement starts with the token that was looked at. -/
theorem head?_statement {s : Stream} (h : s.kind.isSeparator = false) :
    (s.statement settings).1.head? = some s.current := by
  rw [statement, dif_neg (by simp [h])]
  rfl

/-- The lines read so far with one more statement, if it has tokens. -/
def addLine (lines : Array Line) (s : Stream) (tokens : List Token) : Array Line :=
  if tokens.isEmpty then lines
  else lines.push { line := s.current.span.line, raw := s.isRaw, tokens := tokens }

/-- Enter raw mode if the statement opens a block. -/
def openBlock (s : Stream) : Stream := if s.kind = .macroStart then s.enterRaw else s

/-- Leave raw mode if the statement that started at `start` closes a block. -/
def closeBlock (start s : Stream) : Stream :=
  if start.isRaw ∧ start.kind = .macroEnd then s.leaveRaw else s

/-- Report the blocks that are open. -/
def reportOpenBlocks : Nat → Stream → Stream
  | 0, s => s
  | n + 1, s => reportOpenBlocks n (s.report .unclosedBlock)

@[simp] theorem load_openBlock (s : Stream) : s.openBlock.load = s.load := by
  unfold openBlock
  split <;> simp

@[simp] theorem kind_openBlock (s : Stream) : s.openBlock.kind = s.kind := by
  unfold openBlock
  split <;> rfl

@[simp] theorem feed_openBlock (s : Stream) : s.openBlock.feed = s.feed := by
  unfold openBlock
  split <;> rfl

@[simp] theorem current_openBlock (s : Stream) : s.openBlock.current = s.current := by
  unfold openBlock
  split <;> rfl

theorem rawDepth_openBlock (s : Stream) :
    s.openBlock.rawDepth = if s.kind = .macroStart then s.rawDepth + 1 else s.rawDepth := by
  unfold openBlock
  split <;> rfl

@[simp] theorem feed_closeBlock (start s : Stream) : (closeBlock start s).feed = s.feed := by
  unfold closeBlock
  split <;> rfl

@[simp] theorem current_closeBlock (start s : Stream) :
    (closeBlock start s).current = s.current := by
  unfold closeBlock
  split <;> rfl

theorem rawDepth_closeBlock (start s : Stream) :
    (closeBlock start s).rawDepth
      = if start.isRaw ∧ start.kind = .macroEnd then s.rawDepth - 1 else s.rawDepth := by
  unfold closeBlock
  split <;> rfl

@[simp] theorem load_closeBlock (start s : Stream) : (closeBlock start s).load = s.load := by
  unfold closeBlock
  split <;> simp

@[simp] theorem kind_closeBlock (start s : Stream) : (closeBlock start s).kind = s.kind := by
  unfold closeBlock
  split <;> rfl

/-- Past the end of a statement there is less to show than at its start. -/
theorem load_consumeSeparator_lt {s t : Stream} (h : s.kind ≠ .eof)
    (hk : t.kind = (s.statement settings).2.kind) (hl : t.load = (s.statement settings).2.load) :
    (t.consumeSeparator settings).load < s.load := by
  cases hs : s.kind.isSeparator with
  | false =>
    have := load_statement_lt settings hs
    have := (Advance.full settings).load_consumeSeparator_le t
    unfold consumeSeparator
    omega
  | true =>
    rw [statement, dif_pos hs] at hk hl
    have hsep : t.kind = .sep := by
      cases hs' : s.kind <;> simp_all [Kind.isSeparator]
    have := (Advance.full settings).load_lt (s := t) (by simp [hsep])
    rw [consumeSeparator, Advance.consumeSeparator, hsep]
    dsimp only at *
    omega

/-- Read the remaining statements, in blocks or not, behind the lines read so far. -/
def readLines (lines : Array Line) (s : Stream) : Array Line × Stream :=
  if _h : s.kind = .eof then (lines, reportOpenBlocks s.rawDepth s)
  else
    let start := s.openBlock
    let r := start.statement settings
    readLines (addLine lines start r.1) ((closeBlock start r.2).consumeSeparator settings)
termination_by s.load
decreasing_by
  rw [← load_openBlock s]
  exact load_consumeSeparator_lt settings (by simpa using _h) (by simp) (by simp)

/-- Read the remaining statements without regard to blocks. -/
def readFlatLines (lines : Array Line) (s : Stream) : Array Line × Stream :=
  if _h : s.kind = .eof then (lines, s)
  else
    let r := s.statement settings
    readFlatLines (addLine lines s r.1) (r.2.consumeSeparator settings)
termination_by s.load
decreasing_by exact load_consumeSeparator_lt settings _h rfl rfl

end Stream

/-- What reading a source to its end gives. -/
structure Expansion where
  lines : List Line
  diagnostics : Diagnostics

/-- The statements of a source, functions expanded outside macro blocks. -/
def expandSource (settings : Settings) (source : String) : Expansion :=
  let r := ((Stream.ofSource source).advance settings).readLines settings #[]
  ⟨r.1.toList, r.2.log⟩

/-- The statements of a source as they were scanned. -/
def expandSourceRaw (limits : Limits) (source : String) : Expansion :=
  let settings : Settings := { limits := limits }
  let r := ((Stream.ofSource source).enterRaw.advance settings).readFlatLines settings #[]
  ⟨r.1.toList, r.2.log⟩

end AsmExpand
