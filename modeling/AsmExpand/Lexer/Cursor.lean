import AsmExpand.Lexer.Lexeme

/-!
# The scanner

A cursor is a place in a source: the line, the byte column on it, what stands to
the left, and the bytes still to be read. `Cursor.next` skips blanks and a
comment and reads one item: the end of the line, a lexeme with its place, or, at
the end of the bytes, the end of the input, which it will read again for ever.

`Scan` is a whole source scanned: finitely many items, and the place of the end.
Whatever is read from a source is read from its scan, and a list of items that
comes from elsewhere is a scan as well.
-/

namespace AsmExpand

/-- A fault with its place. -/
structure ScanError where
  message : String
  span : Span := {}
deriving DecidableEq

/-- What a scanner delivers. -/
abbrev Item := Except ScanError Token

/-- Items in order, and then the end of the input for ever. -/
structure Scan where
  items : List Item
  endSpan : Span := {}

namespace Scan

/-- The end of the input, as a scan delivers it. -/
def eof (s : Scan) : Token := .atEof s.endSpan

end Scan

structure Cursor where
  rest : List Byte
  line : Nat := 1
  column : Nat := 1
  left : Left := {}

namespace Cursor

def ofSource (source : String) : Cursor := { rest := Utf8.bytes source }

/-- The place of the next `width` bytes. -/
def span (c : Cursor) (width : Nat) : Span := ⟨c.line, c.column, c.column + width⟩

/-- Move over `n` bytes of the line. -/
def skip (c : Cursor) (n : Nat) : Cursor :=
  { c with
    rest := c.rest.drop n
    column := c.column + n
    left := (c.rest.take n).foldl Left.push c.left }

/-- Move over the newline that is next. The number of the line has no bound (see `Span`). -/
def newline (c : Cursor) : Cursor := { rest := c.rest.tail, line := c.line + 1 }

/-- The number of bytes that blanks and a comment take. -/
def gap (bs : List Byte) : Nat :=
  let blanks := (bs.takeWhile (·.isBlank)).length
  match bs.dropWhile (·.isBlank) with
  | [] => blanks
  | b :: rest =>
    if b = .ofChar ';' then blanks + 1 + (rest.takeWhile (!·.endsLine)).length else blanks

/-- Move over blanks and a comment. -/
def skipGap (c : Cursor) : Cursor := c.skip (gap c.rest)

/-- Read the item that starts with `b`, where no gap is next, and move behind it. -/
def item (c : Cursor) (b : Byte) (rest : List Byte) : Item × Cursor :=
  if b.isNewline then (.ok { kind := .sep, span := c.span 1 }, c.newline)
  else
    let x := Lexeme.read c.left b rest
    let place := c.span x.width
    match x.reading with
    | .ok (kind, literal) => (.ok ⟨kind, literal, place⟩, c.skip x.width)
    | .error f => (.error ⟨f.message, place⟩, c.skip x.width)

/-- The next item and the cursor behind it. -/
def next (c : Cursor) : Item × Cursor :=
  let c := c.skipGap
  match c.rest with
  | [] => (.ok (.atEof (c.span 0)), c)
  | b :: rest => c.item b rest

theorem skip_rest (c : Cursor) (n : Nat) : (c.skip n).rest = c.rest.drop n := rfl

theorem newline_rest (c : Cursor) : c.newline.rest = c.rest.tail := rfl

theorem length_skipGap_le (c : Cursor) : c.skipGap.rest.length ≤ c.rest.length := by
  simp [skipGap, skip_rest]

/-- Every item takes at least one byte. -/
theorem length_item_lt {c : Cursor} {b : Byte} {rest : List Byte} (h : c.rest = b :: rest) :
    (c.item b rest).2.rest.length < c.rest.length := by
  unfold item
  split
  · simp [newline_rest, h]
  · simp only
    split <;> simp only [skip_rest, h, List.length_drop, List.length_cons, Lexeme.width] <;> omega

/-- Scan on from a cursor, behind the items already read. -/
def scanFrom (read : Array Item) (c : Cursor) : Scan :=
  match _h : c.skipGap.rest with
  | [] => ⟨read.toList, c.skipGap.span 0⟩
  | b :: rest =>
    let r := c.skipGap.item b rest
    scanFrom (read.push r.1) r.2
termination_by c.rest.length
decreasing_by
  have := length_item_lt _h
  have := length_skipGap_le c
  omega

end Cursor

/-- The scan of a source. -/
def Scan.ofSource (source : String) : Scan := (Cursor.ofSource source).scanFrom #[]

end AsmExpand
