/-!
# Tokens

A token has a kind, a value for the kinds that carry one, and the place it was
read from. The kinds of the five token functions are one kind, `call`, with the
function in it: those tokens never reach a parser, they are expanded on the way.

Kind and value are independent, because a token handed in from outside may lack
its value; the readers `text` and `int?` say what such a token stands for.
-/

namespace AsmExpand

/-- A stretch of one line, in byte columns counted from 1, the end excluded. Lines are counted
without a bound; a counter of 32 bits agrees in a source of fewer than 2^32 lines. -/
structure Span where
  line : Nat := 0
  colStart : Nat := 0
  colEnd : Nat := 0
deriving DecidableEq

inductive Operator where
  | plus | minus | multiply | power | divide | modulo | shiftLeft | shiftRight
  | bitNot | logicNot | bitAnd | bitOr | bitXor | logicAnd | logicOr | logicXor
  | eq | ne | ge | gt | le | lt
deriving DecidableEq

/-- A function on tokens. -/
inductive TokenFunction where
  | concat | left | mid | right | string
deriving DecidableEq

inductive Kind where
  /-- The end of a line. -/
  | sep
  /-- The end of the input. -/
  | eof
  | leftParen | rightParen | comma | colon | hash | question
  | ident
  /-- A string constant. -/
  | text
  /-- An integer constant. -/
  | int
  | operator (op : Operator)
  /-- A dot keyword without a meaning at this level. -/
  | directive
  | macroStart | macroEnd
  | call (f : TokenFunction)
deriving DecidableEq

namespace Kind

/-- The token function that a kind calls. -/
def function? : Kind → Option TokenFunction
  | call f => some f
  | _ => none

/-- The end of a statement: a line end or the end of the input. -/
def isSeparator : Kind → Bool
  | sep | eof => true
  | _ => false

theorem isSeparator_iff (k : Kind) : k.isSeparator = true ↔ k = sep ∨ k = eof := by
  cases k <;> simp [isSeparator]

/-- What is inside a line is no separator. -/
theorem ne_of_isSeparator {k l : Kind} (hk : k.isSeparator = false) (hl : l.isSeparator = true) :
    k ≠ l := by
  intro e
  rw [e, hl] at hk
  cases hk

/-- A separator calls nothing. -/
theorem function?_of_isSeparator {k : Kind} (h : k.isSeparator = true) : k.function? = none := by
  rcases (isSeparator_iff k).mp h with rfl | rfl
  · rfl
  · rfl

end Kind

/-- The value of a token. -/
inductive Literal where
  | text (s : String)
  | int (v : Int64)
deriving DecidableEq

structure Token where
  kind : Kind
  literal : Option Literal := none
  span : Span := {}
deriving DecidableEq

namespace Token

/-- The text of a token, empty if it has none. -/
def text (t : Token) : String :=
  match t.literal with
  | some (.text s) => s
  | _ => ""

def int? (t : Token) : Option Int64 :=
  match t.literal with
  | some (.int v) => some v
  | _ => none

/-- The end of the input, at a place. -/
def atEof (span : Span) : Token := { kind := .eof, span := span }

def ofText (s : String) (span : Span) : Token :=
  { kind := .text, literal := some (.text s), span := span }

/-- A token with its place mapped. -/
def mapSpan (f : Span → Span) (t : Token) : Token := { t with span := f t.span }

@[simp] theorem kind_mapSpan (f : Span → Span) (t : Token) : (t.mapSpan f).kind = t.kind := rfl

@[simp] theorem literal_mapSpan (f : Span → Span) (t : Token) :
    (t.mapSpan f).literal = t.literal := rfl

@[simp] theorem span_mapSpan (f : Span → Span) (t : Token) : (t.mapSpan f).span = f t.span := rfl

@[simp] theorem text_mapSpan (f : Span → Span) (t : Token) : (t.mapSpan f).text = t.text := rfl

@[simp] theorem int?_mapSpan (f : Span → Span) (t : Token) : (t.mapSpan f).int? = t.int? := rfl

/-- Whether a token counts as input still to be read: the end of the input does
not, however often it is delivered. -/
def isLive (t : Token) : Bool := t.kind ≠ .eof

end Token

end AsmExpand
