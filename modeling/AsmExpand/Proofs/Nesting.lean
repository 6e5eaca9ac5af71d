import AsmExpand.Stream.Expansion
import AsmExpand.Proofs.Simulation

/-!
# The depth of nesting does not matter

Two advances that agree on streams whose feed is no larger than `n` cannot be
told apart by anything that reads such a stream, because reading never makes a
stream larger. So by induction the budget given to nested calls does not matter
once it is as long as the feed is large (`agree_within`), and what is left is
**`advance_eq`**: to go to the next token is to fetch it and, if it calls a
function, to expand the call by going to the next token.
-/

namespace AsmExpand

namespace Advance

/-- Two advances that go the same way from streams whose feed is small. -/
def AgreeUpTo (n : Nat) (a b : Advance) : Prop := ∀ s : Stream, s.feed.size ≤ n → a s = b s

/-- Two streams are the same and small. -/
def SameUpTo (n : Nat) (s t : Stream) : Prop := s = t ∧ s.load ≤ n

variable {a b : Advance} {n : Nat}

theorem AgreeUpTo.simulation (h : AgreeUpTo n a b) : Simulation id a b (SameUpTo n) where
  current := by
    intro s t h
    rcases h with ⟨rfl, _⟩
    rfl
  step := by
    intro s t h t
    rcases h with ⟨rfl, hs⟩
    exact ⟨h s (Nat.le_trans s.size_le_load hs), Nat.le_trans (a.load_le s) hs⟩
  report := by
    intro s t h span cause _
    rcases h with ⟨rfl, hs⟩
    exact ⟨rfl, hs⟩

theorem AgreeUpTo.expand_eq (h : AgreeUpTo n a b) (settings : Settings) (fn : TokenFunction)
    {s : Stream} (hs : s.feed.size ≤ n) : a.expand settings fn s = b.expand settings fn s := by
  refine h.simulation.expand (Q := (· = ·)) settings fn
    ⟨h s hs, Nat.le_trans (a.pays s) hs⟩ ?_ ?_ ?_
  · intro s t h _ value _
    rcases h with ⟨rfl, _⟩
    rfl
  · intro s' t' h ts hts t'
    rcases h with ⟨rfl, _⟩
    rw [show ts.map (Token.mapSpan id) = ts from List.map_id _]
    -- the window and the token behind it were paid for, so the feed is small again
    apply h
    simp only [Stream.size_feed_push, liveCount_append, liveCount_cons, liveCount_nil]
    simp only [Stream.load] at hts
    omega
  · intro s t h
    rcases h with ⟨rfl, _⟩
    rfl

/-- A function token has been taken from the feed. -/
theorem size_feed_lt_of_call? {settings : Settings} {s : Stream} {fn : TokenFunction}
    (h : (s.fetch settings).call? = some fn) : (s.fetch settings).feed.size < s.feed.size := by
  have hk : (s.fetch settings).kind ≠ .eof := by
    intro e
    simp [Stream.call?, e, Kind.function?] at h
  have := s.load_fetch_le settings
  rw [Stream.load, Token.live_of_kind_ne hk] at this
  omega

theorem within_of_call?_eq_none {settings : Settings} {s : Stream} (budget : List Item)
    (h : (s.fetch settings).call? = none) : within settings budget s = s.fetch settings := by
  cases budget with
  | nil => rfl
  | cons => simp [within, calling, h]

theorem within_of_call? {settings : Settings} {s : Stream} {fn : TokenFunction} (i : Item)
    (budget : List Item) (h : (s.fetch settings).call? = some fn) :
    within settings (i :: budget) s
      = (within settings budget).expand settings fn (s.fetch settings) := by
  simp [within, calling, h]

/-- Budgets as long as the feed is large go the same way. -/
theorem agree_within (settings : Settings) {x y : List Item} (hx : n ≤ x.length)
    (hy : n ≤ y.length) : AgreeUpTo n (within settings x) (within settings y) := by
  induction n generalizing x y with
  | zero =>
    intro s hs
    cases h : (s.fetch settings).call? with
    | none => rw [within_of_call?_eq_none x h, within_of_call?_eq_none y h]
    | some fn =>
      have := size_feed_lt_of_call? h
      omega
  | succ n ih =>
    intro s hs
    cases h : (s.fetch settings).call? with
    | none => rw [within_of_call?_eq_none x h, within_of_call?_eq_none y h]
    | some fn =>
      -- what is inside the call comes from a smaller feed
      match x, y, hx, hy with
      | i :: x, j :: y, hx, hy =>
        rw [within_of_call? i x h, within_of_call? j y h]
        have := size_feed_lt_of_call? h
        exact (ih (Nat.le_of_succ_le_succ hx) (Nat.le_of_succ_le_succ hy)).expand_eq settings fn
          (by omega)

/-- A budget as long as the feed is large is no limit. -/
theorem agree_full (settings : Settings) {x : List Item} (hx : n ≤ x.length) :
    AgreeUpTo n (within settings x) (full settings) := by
  intro s hs
  change within settings x s = s.advance settings
  cases h : (s.fetch settings).call? with
  | none => simp [within_of_call?_eq_none x h, Stream.advance, h]
  | some fn =>
    have hlt := size_feed_lt_of_call? h
    match x, hx with
    | [], hx => exact absurd (Nat.lt_of_lt_of_le hlt (Nat.le_trans hs hx)) (Nat.not_lt_zero _)
    | i :: x, hx =>
      rw [within_of_call? i x h]
      simp only [Stream.advance, h]
      have hx : (s.fetch settings).feed.size ≤ x.length := by
        simp only [List.length_cons] at hx
        omega
      exact (agree_within settings hx List.countP_le_length).expand_eq settings fn (Nat.le_refl _)

/-- **To go to the next token is to fetch it and, if it calls a function, to expand
the call by going to the next token.** -/
theorem advance_eq (settings : Settings) (s : Stream) :
    full settings s =
      match (s.fetch settings).call? with
      | some fn => (full settings).expand settings fn (s.fetch settings)
      | none => s.fetch settings := by
  change s.advance settings = _
  cases h : (s.fetch settings).call? with
  | none => simp only [Stream.advance, h]
  | some fn =>
    simp only [Stream.advance, h]
    exact (agree_full settings List.countP_le_length).expand_eq settings fn (Nat.le_refl _)

end Advance

end AsmExpand
