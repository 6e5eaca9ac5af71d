import AsmExpand.Proofs.Nesting
import Mathlib.Logic.Function.Iterate

/-!
# Streams in lockstep

A simulation relates streams that go on in the same way, whatever their advances
do. This module finds simulations for the advance that users go by. Its users
only say what happens to *one token of the feed*: `Q` relates streams whose feeds
are about to deliver, `R` relates them once a token is current, and `Lockstep`
asks how the one leads to the other.

The argument is an induction on the size of the feed. A token that calls nothing
is current at once. A token that calls a function leaves a smaller feed, and
everything that the call reads comes out of that one, so the induction hypothesis
is a simulation for what is inside the call. Its window is a part of what was
read, so the feed is still smaller when the window is in front of it.

`Lockstep.advance` is the main result: to advance leads from `Q` to `R`, however
deep the calls are nested. A property of one stream is the case of a stream in
lockstep with itself (`Upkeep`).
-/

namespace AsmExpand

/-- How relations are carried by one token: `Q` holds before it is taken from the
feed and `R` once it is current. -/
structure Lockstep (f : Span → Span) (settings : Settings) (Q R : Stream → Stream → Prop) :
    Prop where
  /-- A token that calls nothing becomes current on both sides. -/
  take : ∀ {s t}, Q s t → (s.fetch settings).call? = none →
    (t.fetch settings).call? = none ∧ R (s.fetch settings) (t.fetch settings)
  /-- A function token is taken on both sides. -/
  call : ∀ {s t fn}, Q s t → (s.fetch settings).call? = some fn →
    (t.fetch settings).call? = some fn ∧ Q (s.fetch settings) (t.fetch settings)
  current : ∀ {s t}, R s t → t.current = s.current.mapSpan f
  /-- The feed behind a token inside a line delivers on both sides. -/
  ahead : ∀ {s t}, R s t → s.kind.isSeparator = false → Q s t
  report : ∀ {s t}, R s t → ∀ span cause, cause.inLine = true →
    R (s.reportAt span cause) (t.reportAt (f span) cause)
  /-- A closing parenthesis turns into a constant within the limit on both sides. -/
  literal : ∀ {s t}, R s t → s.kind = .rightParen → ∀ value : String,
    value.utf8ByteSize ≤ settings.limits.maxStringLength →
    R { s with current := .ofText value s.current.span }
      { t with current := .ofText value t.current.span }
  /-- Tokens that were current come next again, with the current one behind them. -/
  window : ∀ {s t}, R s t → ∀ ts,
    (∀ x ∈ ts, ∃ u, (∃ v, R u v) ∧ u.current = x ∧ u.kind.isSeparator = false) →
    Q (s.push (ts ++ [s.current])) (t.push (ts.map (Token.mapSpan f) ++ [t.current]))

namespace Lockstep

variable {f : Span → Span} {settings : Settings} {Q R : Stream → Stream → Prop}

/-- What is read from a small feed is read in lockstep, if streams with such a feed
advance in lockstep. -/
theorem simulation_of_small (lock : Lockstep f settings Q R) {n : Nat}
    (small : ∀ {s t}, s.feed.size ≤ n → Q s t →
      R (Advance.full settings s) (Advance.full settings t)) :
    Simulation f (Advance.full settings) (Advance.full settings)
      (fun s t => R s t ∧ s.load ≤ n) where
  current := fun h => lock.current h.1
  step := by
    intro s t h hk
    obtain ⟨hr, hl⟩ := h
    exact ⟨small (Nat.le_trans s.size_le_load hl) (lock.ahead hr hk),
      Nat.le_trans ((Advance.full settings).load_le s) hl⟩
  report := by
    intro s t h span cause hc
    obtain ⟨hr, hl⟩ := h
    exact ⟨lock.report hr span cause hc, hl⟩

theorem advance_of_size_le (lock : Lockstep f settings Q R) (n : Nat) :
    ∀ {s t}, s.feed.size ≤ n → Q s t →
      R (Advance.full settings s) (Advance.full settings t) := by
  induction n using Nat.strongRecOn with
  | ind n ih =>
    intro s t hn hq
    rw [Advance.advance_eq settings s, Advance.advance_eq settings t]
    cases hc : (s.fetch settings).call? with
    | none =>
      obtain ⟨hc', hr⟩ := lock.take hq hc
      rw [hc']
      exact hr
    | some fn =>
      obtain ⟨hc', hq'⟩ := lock.call hq hc
      rw [hc']
      -- the feed inside the call is smaller, and stays so
      have hlt := Advance.size_feed_lt_of_call? hc
      have small := @ih (s.fetch settings).feed.size (by omega)
      refine (lock.simulation_of_small small).expand (Q := R) settings fn
        ⟨small (Nat.le_refl _) hq', (Advance.full settings).pays _⟩ ?_ ?_ ?_
      · intro u v h hk value hsize
        obtain ⟨hr, _⟩ := h
        exact lock.literal hr hk value hsize
      · intro u v h ts hts hmem
        obtain ⟨hr, _⟩ := h
        refine small ?_ (lock.window hr ts ?_)
        · simp only [Stream.size_feed_push, liveCount_append, liveCount_cons, liveCount_nil]
          simp only [Stream.load] at hts
          omega
        · intro x hx
          obtain ⟨w, ⟨w', hw, _⟩, hcur, hk⟩ := hmem x hx
          exact ⟨w, ⟨w', hw⟩, hcur, hk⟩
      · intro u v h
        obtain ⟨hr, _⟩ := h
        exact hr

/-- **To advance leads from `Q` to `R`**, whatever calls are expanded on the way. -/
theorem advance (lock : Lockstep f settings Q R) {s t : Stream} (hq : Q s t) :
    R (s.advance settings) (t.advance settings) :=
  lock.advance_of_size_le s.feed.size (Nat.le_refl _) hq

/-- Whatever reads related streams reads them in lockstep. -/
theorem simulation (lock : Lockstep f settings Q R) :
    Simulation f (Advance.full settings) (Advance.full settings) R where
  current := lock.current
  step := fun hr hk => lock.advance (lock.ahead hr hk)
  report := lock.report

/-- Streams that may go on behind a separator as well stay in lockstep for ever. -/
theorem iterate (lock : Lockstep f settings Q R) (again : ∀ {s t}, R s t → Q s t) (n : Nat) :
    ∀ {s t}, R s t → R ((Stream.advance settings)^[n] s) ((Stream.advance settings)^[n] t) := by
  induction n with
  | zero => exact fun h => h
  | succ n ih => exact fun h => ih (lock.advance (again h))

/-- **Lockstep composes**, by way of a stream in between. -/
theorem comp {g : Span → Span} {Q' R' : Stream → Stream → Prop} (first : Lockstep f settings Q R)
    (second : Lockstep g settings Q' R') :
    Lockstep (g ∘ f) settings (fun s t => ∃ m, Q s m ∧ Q' m t)
      (fun s t => ∃ m, R s m ∧ R' m t) where
  take := by
    rintro s t ⟨m, hq, hq'⟩ hc
    obtain ⟨hm, hr⟩ := first.take hq hc
    obtain ⟨ht, hr'⟩ := second.take hq' hm
    exact ⟨ht, _, hr, hr'⟩
  call := by
    rintro s t fn ⟨m, hq, hq'⟩ hc
    obtain ⟨hm, hq⟩ := first.call hq hc
    obtain ⟨ht, hq'⟩ := second.call hq' hm
    exact ⟨ht, _, hq, hq'⟩
  current := by
    rintro s t ⟨m, hr, hr'⟩
    rw [second.current hr', first.current hr]
    rfl
  ahead := by
    rintro s t ⟨m, hr, hr'⟩ hk
    exact ⟨m, first.ahead hr hk, second.ahead hr' (by rwa [first.simulation.kind hr])⟩
  report := by
    rintro s t ⟨m, hr, hr'⟩ span cause hc
    exact ⟨_, first.report hr span cause hc, second.report hr' (f span) cause hc⟩
  literal := by
    rintro s t ⟨m, hr, hr'⟩ hk value hsize
    have hm : m.kind = .rightParen := by rw [first.simulation.kind hr, hk]
    exact ⟨_, first.literal hr hk value hsize, second.literal hr' hm value hsize⟩
  window := by
    rintro s t ⟨m, hr, hr'⟩ ts hts
    have hmap : ts.map (Token.mapSpan (g ∘ f))
        = (ts.map (Token.mapSpan f)).map (Token.mapSpan g) := by
      rw [List.map_map]
      rfl
    rw [hmap]
    refine ⟨_, first.window hr ts fun x hx => ?_, second.window hr' _ fun y hy => ?_⟩
    · obtain ⟨u, ⟨v, w, hu, _⟩, hx⟩ := hts x hx
      exact ⟨u, ⟨w, hu⟩, hx⟩
    · -- what was current on the left was current in between
      obtain ⟨x, hx, rfl⟩ := List.mem_map.mp hy
      obtain ⟨u, ⟨v, w, hu, hw⟩, rfl, hk⟩ := hts x hx
      exact ⟨w, ⟨v, hw⟩, first.current hu, by rwa [first.simulation.kind hu]⟩

end Lockstep

/-! ## One stream -/

/-- How a property of one stream is carried by one token: `Q` holds before it is taken
from the feed and `R` once it is current. -/
structure Upkeep (settings : Settings) (Q R : Stream → Prop) : Prop where
  /-- A token that calls nothing becomes current. -/
  take : ∀ {s}, Q s → (s.fetch settings).call? = none → R (s.fetch settings)
  /-- A function token is taken. -/
  call : ∀ {s fn}, Q s → (s.fetch settings).call? = some fn → Q (s.fetch settings)
  /-- The feed behind a token inside a line delivers. -/
  ahead : ∀ {s}, R s → s.kind.isSeparator = false → Q s
  report : ∀ {s}, R s → ∀ span cause, cause.inLine = true → R (s.reportAt span cause)
  /-- A closing parenthesis turns into a constant within the limit. -/
  literal : ∀ {s}, R s → s.kind = .rightParen → ∀ value : String,
    value.utf8ByteSize ≤ settings.limits.maxStringLength →
    R { s with current := .ofText value s.current.span }
  /-- Tokens that were current come next again, with the current one behind them. -/
  window : ∀ {s}, R s → ∀ ts, (∀ x ∈ ts, ∃ u, R u ∧ u.current = x ∧ u.kind.isSeparator = false) →
    Q (s.push (ts ++ [s.current]))

namespace Upkeep

variable {settings : Settings} {Q R : Stream → Prop}

/-- The stream is in lockstep with itself. -/
theorem lockstep (keep : Upkeep settings Q R) :
    Lockstep id settings (fun s t => s = t ∧ Q s) (fun s t => s = t ∧ R s) where
  take := by
    intro s t h hc
    rcases h with ⟨rfl, hq⟩
    exact ⟨hc, rfl, keep.take hq hc⟩
  call := by
    intro s t fn h hc
    rcases h with ⟨rfl, hq⟩
    exact ⟨hc, rfl, keep.call hq hc⟩
  current := by
    intro s t h
    rcases h with ⟨rfl, _⟩
    rfl
  ahead := by
    intro s t h hk
    rcases h with ⟨rfl, hr⟩
    exact ⟨rfl, keep.ahead hr hk⟩
  report := by
    intro s t h span cause hc
    rcases h with ⟨rfl, hr⟩
    exact ⟨rfl, keep.report hr span cause hc⟩
  literal := by
    intro s t h hk value hsize
    rcases h with ⟨rfl, hr⟩
    exact ⟨rfl, keep.literal hr hk value hsize⟩
  window := by
    intro s t h ts hts
    rcases h with ⟨rfl, hr⟩
    rw [show ts.map (Token.mapSpan id) = ts from List.map_id _]
    refine ⟨rfl, keep.window hr ts fun x hx => ?_⟩
    obtain ⟨u, ⟨v, _, hu⟩, hcur, hk⟩ := hts x hx
    exact ⟨u, hu, hcur, hk⟩

/-- **To advance leads from `Q` to `R`**, whatever calls are expanded on the way. -/
theorem advance (keep : Upkeep settings Q R) {s : Stream} (hq : Q s) : R (s.advance settings) :=
  (keep.lockstep.advance ⟨rfl, hq⟩).2

/-- Whatever reads the stream keeps the property. -/
theorem invariant (keep : Upkeep settings Q R) : Invariant (Advance.full settings) R where
  step := fun hr hk => keep.advance (keep.ahead hr hk)
  report := keep.report

end Upkeep

end AsmExpand
