import AsmExpand.Expr.Parser
import AsmExpand.Stream.Window

/-!
# Calls of token functions

A call is read from the stream at its function token: the arguments in
parentheses, with a comma after each count. It comes to one of three ends.

* `.CONCAT` and `.STRING` make a string constant. The parenthesis that closes
  the call is current and turns into the constant, at the parenthesis's place.
* `.LEFT`, `.MID` and `.RIGHT` choose a window of the tokens in the call. The
  token behind the call is current by then, so the window and that token are
  pushed in front of the feed, and the stream goes on from there.
* A call that cannot be completed is abandoned, and the current token stays.

Arguments are read by the advance given, so calls inside them are resolved
first. `load_expand_le` says that a call costs at least its function token.
-/

namespace AsmExpand

/-- What a call comes to. -/
inductive Outcome where
  | literal (value : String)
  | window (tokens : List Token)
  | abandoned
deriving DecidableEq

/-- An outcome with the places of its tokens mapped. -/
def Outcome.mapSpan (f : Span → Span) : Outcome → Outcome
  | literal value => literal value
  | window tokens => window (tokens.map (Token.mapSpan f))
  | abandoned => abandoned

namespace Advance

variable (advance : Advance) (settings : Settings)

/-- A count or start argument. One outside `0..=argumentLimit` is reported at its
first token, and `fallback` stands in for it. -/
def rangeArgument (fallback : Nat) (s : Stream) : Nat × Stream :=
  let (value, s') := advance.constant settings.symbols s
  if 0 ≤ value ∧ value ≤ settings.limits.argumentLimit then (value.toInt.toNat, s')
  else (fallback, s'.reportAt s.current.span .rangeError)

/-- Give a call up: report the cause and skip the rest of the line. -/
def abandon (cause : Cause) (s : Stream) : Outcome × Stream :=
  (.abandoned, advance.skipToSeparator (s.report cause))

/-- End a call that makes a string constant; its closing parenthesis must be
current. -/
def literalAtParen (value : String) (s : Stream) : Outcome × Stream :=
  if s.kind = .rightParen then (.literal value, s)
  else (.abandoned, s.report .rightParenExpected)

/-- Join string constants with commas between them to what was joined before. -/
def join (value : String) (s : Stream) : Outcome × Stream :=
  if _h : s.kind ≠ .text then advance.abandon .stringConstantExpected s
  else if settings.limits.maxStringLength < value.utf8ByteSize + s.current.text.utf8ByteSize then
    advance.abandon .stringTooLong s
  else
    let s₁ := advance s
    if s₁.kind = .comma then join (value ++ s.current.text) (advance s₁)
    else literalAtParen (value ++ s.current.text) s₁
termination_by s.load
decreasing_by
  have h₁ : (advance s).load < s.load := advance.load_lt (by
    intro e
    exact _h (by simp [e]))
  exact Nat.lt_of_le_of_lt (advance.load_le _) h₁

/-- The text that `.STRING` makes of its argument: a name stands for itself, and
anything else is an expression written in decimal. -/
def stringArgument (s : Stream) : String × Stream :=
  if s.kind = .ident then (s.current.text, advance s)
  else
    let (value, s') := advance.constant settings.symbols s
    (Decimal.ofInt64 value, s')

/-- A call behind its opening parenthesis. -/
def resolve (f : TokenFunction) (s : Stream) : Outcome × Stream :=
  match f with
  | .concat => join advance settings "" s
  | .left =>
    let (count, s) := rangeArgument advance settings 1 s
    let (_, s) := advance.consumeComma s
    let (ts, s) := advance.collect 0 s
    (.window (Window.slice 0 count ts), s)
  | .mid =>
    let (start, s) := rangeArgument advance settings 0 s
    let (_, s) := advance.consumeComma s
    let (count, s) := rangeArgument advance settings 1 s
    let (_, s) := advance.consumeComma s
    let (ts, s) := advance.collect 0 s
    (.window (Window.slice start count ts), s)
  | .right =>
    let (count, s) := rangeArgument advance settings 1 s
    let (_, s) := advance.consumeComma s
    let (ts, s) := advance.collect 0 s
    (.window (Window.last count ts), s)
  | .string =>
    let (value, s) := stringArgument advance settings s
    if settings.limits.maxStringLength < value.utf8ByteSize then advance.abandon .stringTooLong s
    else literalAtParen value s

/-- Expand the call whose function token is current. -/
def expand (f : TokenFunction) (s : Stream) : Stream :=
  let (_, s) := advance.consumeLeftParen (advance s)
  match resolve advance settings f s with
  | (.literal value, s) => { s with current := .ofText value s.current.span }
  | (.window ts, s) => advance (s.push (ts ++ [s.current]))
  | (.abandoned, s) => s

/-! ## What a call costs -/

/-- What an outcome will put in front of the feed. -/
def outcomeCount : Outcome → Nat
  | .window ts => liveCount ts
  | _ => 0

theorem load_rangeArgument_le (fallback : Nat) (s : Stream) :
    (rangeArgument advance settings fallback s).2.load ≤ s.load := by
  unfold rangeArgument
  have := advance.load_constant_le settings.symbols s
  dsimp only
  split <;> simpa using this

theorem load_abandon_le (cause : Cause) (s : Stream) : (advance.abandon cause s).2.load ≤ s.load :=
  advance.load_skipToSeparator_le _

theorem load_literalAtParen_le (value : String) (s : Stream) :
    (literalAtParen value s).2.load ≤ s.load := by
  unfold literalAtParen
  split <;> simp

theorem outcomeCount_literalAtParen (value : String) (s : Stream) :
    outcomeCount (literalAtParen value s).1 = 0 := by
  unfold literalAtParen
  split <;> rfl

theorem load_join_le (value : String) (s : Stream) :
    outcomeCount (join advance settings value s).1 + (join advance settings value s).2.load
      ≤ s.load := by
  fun_induction join advance settings value s with
  | case1 value s h =>
    simpa [abandon, outcomeCount] using advance.load_abandon_le .stringConstantExpected s
  | case2 value s h hl =>
    simpa [abandon, outcomeCount] using advance.load_abandon_le .stringTooLong s
  | case3 value s h hl s₁ hc ih =>
    exact Nat.le_trans ih (Nat.le_trans (advance.load_le _) (advance.load_le _))
  | case4 value s h hl s₁ hc =>
    rw [outcomeCount_literalAtParen, Nat.zero_add]
    exact Nat.le_trans (load_literalAtParen_le _ _) (advance.load_le _)

theorem load_stringArgument_le (s : Stream) :
    (stringArgument advance settings s).2.load ≤ s.load := by
  unfold stringArgument
  split
  · exact advance.load_le s
  · exact advance.load_constant_le _ s

theorem literalAtParen_ne_window (value : String) (s : Stream) (ts : List Token) :
    (literalAtParen value s).1 ≠ .window ts := by
  unfold literalAtParen
  split <;> simp

theorem join_ne_window (value : String) (s : Stream) (ts : List Token) :
    (join advance settings value s).1 ≠ .window ts := by
  fun_induction join advance settings value s with
  | case1 => simp [abandon]
  | case2 => simp [abandon]
  | case3 value s h hl s₁ hc ih => exact ih
  | case4 value s h hl s₁ hc => exact literalAtParen_ne_window _ _ ts

theorem kind_of_literalAtParen {value made : String} {s t : Stream}
    (h : literalAtParen value s = (.literal made, t)) : t.kind = .rightParen := by
  unfold literalAtParen at h
  split at h
  · rename_i hk
    cases h
    exact hk
  · simp at h

theorem kind_of_join {value made : String} {s t : Stream}
    (h : join advance settings value s = (.literal made, t)) : t.kind = .rightParen := by
  fun_induction join advance settings value s with
  | case1 => simp [abandon] at h
  | case2 => simp [abandon] at h
  | case3 value s hk hl s₁ hc ih => exact ih h
  | case4 value s hk hl s₁ hc => exact kind_of_literalAtParen h

/-- A call that makes a constant stands at its closing parenthesis. -/
theorem kind_of_resolve {f : TokenFunction} {made : String} {s t : Stream}
    (h : resolve advance settings f s = (.literal made, t)) : t.kind = .rightParen := by
  cases f with
  | concat => exact kind_of_join advance settings h
  | left => simp [resolve] at h
  | mid => simp [resolve] at h
  | right => simp [resolve] at h
  | string =>
    simp only [resolve] at h
    split at h
    · simp [abandon] at h
    · exact kind_of_literalAtParen h

theorem eq_of_literalAtParen {value made : String} {s t : Stream}
    (h : literalAtParen value s = (.literal made, t)) : made = value := by
  unfold literalAtParen at h
  split at h
  · cases h
    rfl
  · simp at h

theorem utf8ByteSize_of_join {value made : String} {s t : Stream}
    (h : join advance settings value s = (.literal made, t)) :
    made.utf8ByteSize ≤ settings.limits.maxStringLength := by
  fun_induction join advance settings value s with
  | case1 => simp [abandon] at h
  | case2 => simp [abandon] at h
  | case3 value s hk hl s₁ hc ih => exact ih h
  | case4 value s hk hl s₁ hc =>
    rw [eq_of_literalAtParen h, String.utf8ByteSize_append]
    omega

/-- A constant that a call makes is within the limit. -/
theorem utf8ByteSize_of_resolve {f : TokenFunction} {made : String} {s t : Stream}
    (h : resolve advance settings f s = (.literal made, t)) :
    made.utf8ByteSize ≤ settings.limits.maxStringLength := by
  cases f with
  | concat => exact utf8ByteSize_of_join advance settings h
  | left => simp [resolve] at h
  | mid => simp [resolve] at h
  | right => simp [resolve] at h
  | string =>
    simp only [resolve] at h
    split at h
    · simp [abandon] at h
    · rw [eq_of_literalAtParen h]
      omega

theorem load_resolve_le (f : TokenFunction) (s : Stream) :
    outcomeCount (resolve advance settings f s).1 + (resolve advance settings f s).2.load
      ≤ s.load := by
  have range := load_rangeArgument_le advance settings
  have comma := advance.load_consume_le .comma .commaExpected
  have list := advance.liveCount_collect_add_load_le 0
  cases f with
  | concat => exact load_join_le advance settings "" s
  | left =>
    simp only [resolve, outcomeCount, consumeComma]
    have h₁ := range 1 s
    generalize rangeArgument advance settings 1 s = r₁ at *
    have h₂ := comma r₁.2
    generalize advance.consume .comma .commaExpected r₁.2 = r₂ at *
    have h₃ := list r₂.2
    have := Window.liveCount_le_of_sublist (Window.slice_sublist 0 r₁.1 (advance.collect 0 r₂.2).1)
    omega
  | mid =>
    simp only [resolve, outcomeCount, consumeComma]
    have h₁ := range 0 s
    generalize rangeArgument advance settings 0 s = r₁ at *
    have h₂ := comma r₁.2
    generalize advance.consume .comma .commaExpected r₁.2 = r₂ at *
    have h₃ := range 1 r₂.2
    generalize rangeArgument advance settings 1 r₂.2 = r₃ at *
    have h₄ := comma r₃.2
    generalize advance.consume .comma .commaExpected r₃.2 = r₄ at *
    have h₅ := list r₄.2
    have := Window.liveCount_le_of_sublist
      (Window.slice_sublist r₁.1 r₃.1 (advance.collect 0 r₄.2).1)
    omega
  | right =>
    simp only [resolve, outcomeCount, consumeComma]
    have h₁ := range 1 s
    generalize rangeArgument advance settings 1 s = r₁ at *
    have h₂ := comma r₁.2
    generalize advance.consume .comma .commaExpected r₁.2 = r₂ at *
    have h₃ := list r₂.2
    have := Window.liveCount_le_of_sublist (Window.last_sublist r₁.1 (advance.collect 0 r₂.2).1)
    omega
  | string =>
    simp only [resolve]
    have h₁ := load_stringArgument_le advance settings s
    generalize stringArgument advance settings s = r₁ at *
    split
    · simp only [abandon, outcomeCount, Nat.zero_add]
      exact Nat.le_trans (advance.load_abandon_le .stringTooLong r₁.2) h₁
    · rw [outcomeCount_literalAtParen, Nat.zero_add]
      exact Nat.le_trans (load_literalAtParen_le _ _) h₁

/-- **A call costs at least its function token**, and puts nothing in front of the
feed that it has not read. -/
theorem load_expand_le (f : TokenFunction) (s : Stream) :
    (expand advance settings f s).load ≤ s.feed.size := by
  unfold expand
  have h₀ := advance.pays s
  have h₁ := advance.load_consume_le .leftParen .leftParenExpected (advance s)
  simp only [consumeLeftParen]
  generalize advance.consume .leftParen .leftParenExpected (advance s) = r₁ at *
  have h₂ := load_resolve_le advance settings f r₁.2
  split
  · rename_i value t h
    have hk := kind_of_resolve advance settings h
    rw [h] at h₂
    simp only [outcomeCount, Nat.zero_add, Stream.load] at h₂
    rw [Token.live_of_kind_ne (t := t.current) (by
      intro e
      rw [Stream.kind, e] at hk
      cases hk)] at h₂
    -- the constant counts for as much as the parenthesis it replaces
    have : ({ t with current := Token.ofText value t.current.span } : Stream).load
        = 1 + t.feed.size := rfl
    simp only [Stream.load] at *
    omega
  · rename_i ts t h
    rw [h] at h₂
    simp only [outcomeCount] at h₂
    -- what is pushed has been read before
    have := advance.pays (t.push (ts ++ [t.current]))
    simp only [Stream.size_feed_push, liveCount_append, liveCount_cons, liveCount_nil] at this
    simp only [Stream.load] at *
    omega
  · rename_i t h
    rw [h] at h₂
    simp only [outcomeCount, Nat.zero_add] at h₂
    omega

end Advance

end AsmExpand
