import AsmExpand.Diagnostic.Basic
import AsmExpand.Lexer.Cursor

/-!
# The feed

Tokens come from a scan, but lists of tokens can be pushed in front of it: the
list pushed last is delivered first, then the one below it, and the scan goes on
once all of them are used up. That is what lets an expansion insert tokens as if
they had been typed.

A pushed token is delivered as it is. What comes from the scan is checked on the
way: a fault is recorded and skipped, and a string constant that is too long is
recorded and cut.

`Feed.size` counts what a feed has still to deliver, the end of the input left
out. No delivery raises it, and delivering anything but the end of the input
lowers it: all recursion over a stream rests on `live_next_add_size_le`.
-/

namespace AsmExpand

/-- The longest beginning that fits into `room` bytes. -/
def fitting : Nat → List Char → List Char
  | _, [] => []
  | room, c :: cs => if c.utf8Size ≤ room then c :: fitting (room - c.utf8Size) cs else []

/-- The longest beginning of a text that takes at most `limit` bytes. -/
def truncate (limit : Nat) (s : String) : String := String.ofList (fitting limit s.toList)

theorem utf8ByteSize_fitting_le (room : Nat) (cs : List Char) :
    (String.ofList (fitting room cs)).utf8ByteSize ≤ room := by
  fun_induction fitting room cs with
  | case1 => simp
  | case2 room c cs h ih =>
    rw [String.ofList_cons, String.utf8ByteSize_append, String.utf8ByteSize_singleton]
    omega
  | case3 => simp

theorem utf8ByteSize_truncate_le (limit : Nat) (s : String) :
    (truncate limit s).utf8ByteSize ≤ limit :=
  utf8ByteSize_fitting_le limit s.toList

namespace Token

/-- Whether a token is a string constant of more than `limit` bytes. -/
def isTooLong (limit : Nat) (t : Token) : Bool :=
  t.kind = .text && decide (limit < t.text.utf8ByteSize)

/-- Only a string constant can be too long. -/
theorem isTooLong_of_kind_ne {t : Token} (h : t.kind ≠ .text) (limit : Nat) :
    t.isTooLong limit = false := by
  simp [isTooLong, h]

/-- What a token counts for as input still to be read. -/
def live (t : Token) : Nat := if t.isLive then 1 else 0

theorem live_of_kind_ne {t : Token} (h : t.kind ≠ .eof) : t.live = 1 := by
  simp [live, isLive, h]

end Token

/-- The number of tokens in a list, the end of the input left out. -/
def liveCount (ts : List Token) : Nat := ts.countP Token.isLive

@[simp] theorem liveCount_nil : liveCount [] = 0 := rfl

@[simp] theorem liveCount_cons (t : Token) (ts : List Token) :
    liveCount (t :: ts) = t.live + liveCount ts := by
  unfold liveCount Token.live
  by_cases h : t.isLive <;> simp [h, Nat.add_comm]

@[simp] theorem liveCount_append (ts us : List Token) :
    liveCount (ts ++ us) = liveCount ts + liveCount us := by
  simp [liveCount, List.countP_append]

/-- Whether an item is a token still to be read. -/
def isLiveItem : Item → Bool
  | .ok t => t.isLive
  | .error _ => false

/-- The number of tokens among items, the end of the input left out. -/
def itemCount (items : List Item) : Nat := items.countP isLiveItem

@[simp] theorem itemCount_ok (t : Token) (items : List Item) :
    itemCount (.ok t :: items) = t.live + itemCount items := by
  unfold itemCount Token.live
  by_cases h : t.isLive <;> simp [isLiveItem, h, Nat.add_comm]

@[simp] theorem itemCount_error (e : ScanError) (items : List Item) :
    itemCount (.error e :: items) = itemCount items := by
  simp [itemCount, isLiveItem]

@[simp] theorem itemCount_append (xs ys : List Item) :
    itemCount (xs ++ ys) = itemCount xs + itemCount ys := by
  simp [itemCount, List.countP_append]

@[simp] theorem itemCount_map_ok (ts : List Token) : itemCount (ts.map .ok) = liveCount ts := by
  induction ts with
  | nil => rfl
  | cons t ts ih => simp [ih]

structure Feed where
  /-- The pushed lists, the last one first. -/
  pending : List (List Token) := []
  scan : Scan

/-- A token delivered, with the diagnostics after it and the feed behind it. -/
structure Delivery where
  token : Token
  log : Diagnostics
  feed : Feed

namespace Feed

/-- Put a list in front of everything else. -/
def push (f : Feed) (ts : List Token) : Feed := { f with pending := ts :: f.pending }

/-- The number of pushed lists not yet found to be used up. -/
def pendingLists (f : Feed) : Nat := f.pending.length

/-- The first pushed token, and the lists behind it. Lists that are used up go. -/
def popPending? : List (List Token) → Option (Token × List (List Token))
  | [] => none
  | [] :: below => popPending? below
  | (t :: ts) :: below => some (t, ts :: below)

/-- A scanned token as it is delivered. -/
def checked (limit : Nat) (t : Token) : Token :=
  if t.isTooLong limit then .ofText (truncate limit t.text) t.span else t

/-- The log after a scanned token is delivered. -/
def checkedLog (limit : Nat) (log : Diagnostics) (t : Token) : Diagnostics :=
  if t.isTooLong limit then log.report t.span .stringTooLong else log

/-- The next token of a scan, faults recorded and skipped. -/
def draw (limit : Nat) (endSpan : Span) (log : Diagnostics) : List Item → Delivery
  | [] => ⟨.atEof endSpan, log, ⟨[], ⟨[], endSpan⟩⟩⟩
  | .ok t :: items => ⟨checked limit t, checkedLog limit log t, ⟨[], ⟨items, endSpan⟩⟩⟩
  | .error e :: items => draw limit endSpan (log.report e.span (.malformed e.message)) items

/-- The next token. -/
def next (limit : Nat) (log : Diagnostics) (f : Feed) : Delivery :=
  match popPending? f.pending with
  | some (t, pending) => ⟨t, log, { f with pending }⟩
  | none => draw limit f.scan.endSpan log f.scan.items

/-- What a feed holds as one sequence: the pushed tokens, then the items of the scan. -/
def upcoming (f : Feed) : List Item := f.pending.flatten.map .ok ++ f.scan.items

/-- What a feed has still to deliver. -/
def size (f : Feed) : Nat := itemCount f.upcoming

@[simp] theorem upcoming_push (f : Feed) (ts : List Token) :
    (f.push ts).upcoming = ts.map .ok ++ f.upcoming := by
  simp [push, upcoming]

@[simp] theorem size_push (f : Feed) (ts : List Token) :
    (f.push ts).size = liveCount ts + f.size := by
  simp [size]

theorem flatten_of_popPending? {pending below : List (List Token)} {t : Token}
    (h : popPending? pending = some (t, below)) : pending.flatten = t :: below.flatten := by
  fun_induction popPending? pending with
  | case1 => simp at h
  | case2 rest ih => simpa using ih h
  | case3 t' ts rest =>
    cases h
    rfl

theorem flatten_of_popPending?_eq_none {pending : List (List Token)}
    (h : popPending? pending = none) : pending.flatten = [] := by
  fun_induction popPending? pending with
  | case1 => rfl
  | case2 rest ih => simpa using ih h
  | case3 => simp at h

theorem live_checked_le (limit : Nat) (t : Token) : (checked limit t).live ≤ t.live := by
  unfold checked
  split
  · rename_i h
    have : t.kind = .text := by
      simp [Token.isTooLong] at h
      exact h.1
    simp [Token.live, Token.isLive, Token.ofText, this]
  · exact Nat.le_refl _

theorem live_draw_add_size_le (limit : Nat) (endSpan : Span) (log : Diagnostics)
    (items : List Item) :
    (draw limit endSpan log items).token.live + (draw limit endSpan log items).feed.size
      ≤ itemCount items := by
  fun_induction draw limit endSpan log items with
  | case1 => simp [Token.live, Token.isLive, Token.atEof, size, upcoming]
  | case2 log t items =>
    have := live_checked_le limit t
    simp only [size, upcoming, List.flatten_nil, List.map_nil, List.nil_append, itemCount_ok]
    omega
  | case3 log e items ih => simpa using ih

/-- **What is delivered was still to be delivered, and is so no more.** -/
theorem live_next_add_size_le (limit : Nat) (log : Diagnostics) (f : Feed) :
    (f.next limit log).token.live + (f.next limit log).feed.size ≤ f.size := by
  unfold next
  split
  · rename_i t pending h
    simp [size, upcoming, flatten_of_popPending? h]
  · rename_i h
    have : f.size = itemCount f.scan.items := by
      simp [size, upcoming, flatten_of_popPending?_eq_none h]
    rw [this]
    exact live_draw_add_size_le limit f.scan.endSpan log f.scan.items

end Feed

end AsmExpand
