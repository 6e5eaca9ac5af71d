import AsmExpand.Stream.Reading

/-!
# Windows of an argument list

`collect` reads the tokens of an argument list up to the parenthesis that closes
it, which is consumed; parentheses inside belong to the list. If the line ends
first, that is reported, the tokens read so far are the list, and the separator
stays current. A window is a part of the list chosen by position.

What a list holds has been paid for: the tokens collected and the load left
together do not exceed the load before (`liveCount_collect_add_load_le`). So a
window can be pushed back in front of the feed without adding to it.
-/

namespace AsmExpand

namespace Window

/-- The tokens from position `start` on, at most `count` of them. -/
def slice (start count : Nat) (ts : List Token) : List Token := (ts.drop start).take count

/-- The last tokens, at most `count` of them. -/
def last (count : Nat) (ts : List Token) : List Token := ts.drop (ts.length - count)

theorem slice_sublist (start count : Nat) (ts : List Token) :
    (slice start count ts).Sublist ts :=
  (List.take_sublist _ _).trans (List.drop_sublist _ _)

theorem last_sublist (count : Nat) (ts : List Token) : (last count ts).Sublist ts :=
  List.drop_sublist _ _

theorem map_slice (f : Token → Token) (start count : Nat) (ts : List Token) :
    slice start count (ts.map f) = (slice start count ts).map f := by
  simp [slice, List.map_drop, List.map_take]

theorem map_last (f : Token → Token) (count : Nat) (ts : List Token) :
    last count (ts.map f) = (last count ts).map f := by
  simp [last, List.map_drop]

theorem liveCount_le_of_sublist {ts us : List Token} (h : ts.Sublist us) :
    liveCount ts ≤ liveCount us :=
  h.countP_le

end Window

namespace Advance

variable (advance : Advance)

/-- The parentheses open after one more token. -/
def parensAfter (depth : Nat) (k : Kind) : Nat :=
  match k with
  | .leftParen => depth + 1
  | .rightParen => depth - 1
  | _ => depth

/-- The rest of an argument list in which `depth` parentheses are open. -/
def collect (depth : Nat) (s : Stream) : List Token × Stream :=
  if _h : s.kind.isSeparator then ([], s.report .unexpectedEndOfLine)
  else if s.kind = .rightParen ∧ depth = 0 then ([], advance s)
  else
    let (ts, s') := collect (parensAfter depth s.kind) (advance s)
    (s.current :: ts, s')
termination_by s.load
decreasing_by exact advance.load_lt_of_not_isSeparator (by simpa using _h)

theorem liveCount_collect_add_load_le (depth : Nat) (s : Stream) :
    liveCount (advance.collect depth s).1 + (advance.collect depth s).2.load ≤ s.load := by
  fun_induction collect advance depth s with
  | case1 => simp
  | case2 depth s h hr => simpa using advance.load_le s
  | case3 depth s h hr ts s' hc ih =>
    have hk : s.kind ≠ .eof := by
      intro e
      simp [e, Kind.isSeparator] at h
    have hs : s.load = 1 + s.feed.size := by rw [Stream.load, Token.live_of_kind_ne hk]
    have := advance.pays s
    have := Token.live_of_kind_ne (t := s.current) hk
    rw [hc] at ih
    simp only [liveCount_cons] at *
    omega

end Advance

end AsmExpand
