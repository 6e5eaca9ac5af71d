import AsmExpand.Stream.Call

/-!
# Expansion on every advance

Going to the next token takes one token from the feed. If it calls a function
and raw mode is off, the call is expanded before anyone sees it, and expanding
it means going to the next token, again and again: calls nest.

`Advance.within budget` resolves calls that are nested no deeper than the budget
is long. A call uses up its own function token before anything inside it is
read, so a feed cannot hold calls nested deeper than it has items, and
`Stream.advance` takes just these for the budget. It is a list because the list
is at hand, while counting it would be a pass over the whole source at each call.
A longer budget would make no difference, and none shows from outside:
`Advance.advance_eq` says what `Stream.advance` does without one.
-/

namespace AsmExpand

namespace Stream

/-- The function that the current token calls, unless raw mode is on. -/
def call? (s : Stream) : Option TokenFunction :=
  if s.isRaw then none else s.kind.function?

theorem call?_of_function?_eq_none {s : Stream} (h : s.kind.function? = none) :
    s.call? = none := by
  unfold call?
  split
  · rfl
  · exact h

theorem kind_of_call? {s : Stream} {fn : TokenFunction} (h : s.call? = some fn) :
    s.kind = .call fn := by
  unfold call? Kind.function? at h
  split at h
  · cases h
  · split at h
    · rename_i hk
      rw [hk, Option.some.inj h]
    · cases h

end Stream

namespace Advance

/-- Fetch a token and, if it calls a function, expand the call by another advance,
which is made only then. -/
def calling (settings : Settings) (inner : Unit → Advance) : Advance where
  step s :=
    let t := s.fetch settings
    match t.call? with
    | some f => (inner ()).expand settings f t
    | none => t
  pays s := by
    have := s.load_fetch_le settings
    dsimp only
    split
    · rename_i f _
      have := (inner ()).load_expand_le settings f (s.fetch settings)
      have := (s.fetch settings).size_le_load
      omega
    · assumption

/-- Advance with calls resolved that are nested no deeper than the budget is long. -/
def within (settings : Settings) : List Item → Advance
  | [] => raw settings
  | _ :: budget => calling settings fun _ => within settings budget

end Advance

namespace Stream

/-- Go to the next token, calls expanded unless raw mode is on. -/
def advance (settings : Settings) (s : Stream) : Stream :=
  let t := s.fetch settings
  match t.call? with
  | some f => (Advance.within settings t.feed.upcoming).expand settings f t
  | none => t

theorem advance_of_call?_eq_none (settings : Settings) {s : Stream}
    (h : (s.fetch settings).call? = none) : s.advance settings = s.fetch settings := by
  unfold advance
  simp only [h]

theorem load_advance_le (settings : Settings) (s : Stream) :
    (s.advance settings).load ≤ s.feed.size :=
  (Advance.calling settings fun _ => .within settings (s.fetch settings).feed.upcoming).pays s

end Stream

/-- The advance that a stream's users go by. -/
def Advance.full (settings : Settings) : Advance :=
  ⟨Stream.advance settings, Stream.load_advance_le settings⟩

end AsmExpand
