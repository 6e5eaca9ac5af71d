import AsmExpand.Proofs.Delivery
import AsmExpand.Proofs.Lockstep

/-!
# Earlier reports

A stream does not look at its log. So one that has something else at the beginning of its log
is otherwise the same stream (`Relogged`), and the two are in lockstep: they show the same
tokens, hold the same and report the same, each behind what it had reported before.

What a stream reports on its way can then be told apart from what was reported when it set
out: take one diagnostic away, and the rest of the run is what it would have been without it.
-/

namespace AsmExpand

/-- The second stream is the first with `c` for `b` at the beginning of the log. -/
def Relogged (b c : Diagnostics) (s t : Stream) : Prop :=
  ∃ ds, s.log = b ++ ds ∧ t = { s with log := c ++ ds }

namespace Relogged

variable {b c : Diagnostics} {s t : Stream}

/-- A stream that has reported nothing since. -/
theorem start (s : Stream) (c : Diagnostics) : Relogged s.log c s { s with log := c } :=
  ⟨#[], by simp, by simp⟩

theorem current (h : Relogged b c s t) : t.current = s.current := by
  obtain ⟨ds, _, rfl⟩ := h
  rfl

theorem push (h : Relogged b c s t) (ts : List Token) : Relogged b c (s.push ts) (t.push ts) := by
  obtain ⟨ds, hlog, rfl⟩ := h
  exact ⟨ds, hlog, rfl⟩

theorem reportAt (h : Relogged b c s t) (span : Span) (cause : Cause) :
    Relogged b c (s.reportAt span cause) (t.reportAt span cause) := by
  obtain ⟨ds, hlog, rfl⟩ := h
  refine ⟨ds.report span cause, ?_, ?_⟩
  · rw [Stream.reportAt, hlog, Diagnostics.report, Diagnostics.report, Array.append_push]
  · rw [Stream.reportAt, Diagnostics.report, Diagnostics.report, Array.append_push]
    rfl

/-- What a fetch reports does not depend on the log. -/
theorem fetch (h : Relogged b c s t) (settings : Settings) :
    Relogged b c (s.fetch settings) (t.fetch settings) := by
  obtain ⟨ds, hlog, rfl⟩ := h
  obtain ⟨more, hmore⟩ := Feed.exists_next_log settings.limits.maxStringLength s.feed
  obtain ⟨htoken, hfeed⟩ :=
    Feed.next_log settings.limits.maxStringLength s.feed (c ++ ds) s.log
  refine ⟨ds ++ more, ?_, ?_⟩
  · rw [Stream.fetch, hmore, hlog, Array.append_assoc]
  · simp only [Stream.fetch, htoken, hfeed, hmore, Array.append_assoc]

theorem call? (h : Relogged b c s t) : t.call? = s.call? := by
  obtain ⟨ds, _, rfl⟩ := h
  rfl

/-- **What was reported before does not matter** to how a stream goes on. -/
theorem lockstep (settings : Settings) (b c : Diagnostics) :
    Lockstep id settings (Relogged b c) (Relogged b c) where
  take := fun h hc => ⟨(h.fetch settings).call?.trans hc, h.fetch settings⟩
  call := fun h hc => ⟨(h.fetch settings).call?.trans hc, h.fetch settings⟩
  current := fun h => h.current
  ahead := fun h _ => h
  report := fun h span cause _ => h.reportAt span cause
  literal := by
    intro s t h _ value _
    obtain ⟨ds, hlog, rfl⟩ := h
    exact ⟨ds, hlog, rfl⟩
  window := by
    intro s t h ts _
    rw [show ts.map (Token.mapSpan id) = ts from List.map_id _, h.current]
    exact h.push _

end Relogged

namespace Stream

/-- What is in the log stays there. -/
theorem logged_upkeep (settings : Settings) (before : Diagnostics) :
    Upkeep settings (fun s => ∃ ds, s.log = before ++ ds)
      (fun s => ∃ ds, s.log = before ++ ds) where
  take := by
    rintro s ⟨ds, hds⟩ _
    obtain ⟨more, hmore⟩ := exists_log_fetch settings s
    exact ⟨ds ++ more, by rw [hmore, hds, Array.append_assoc]⟩
  call := by
    rintro s fn ⟨ds, hds⟩ _
    obtain ⟨more, hmore⟩ := exists_log_fetch settings s
    exact ⟨ds ++ more, by rw [hmore, hds, Array.append_assoc]⟩
  ahead := fun h _ => h
  report := by
    rintro s ⟨ds, hds⟩ span cause _
    refine ⟨ds.report span cause, ?_⟩
    rw [reportAt, hds, Diagnostics.report, Diagnostics.report, Array.append_push]
  literal := fun h _ _ _ => h
  window := fun h _ _ => h

/-- To advance adds to the log. -/
theorem exists_log_advance (settings : Settings) (s : Stream) :
    ∃ ds, (s.advance settings).log = s.log ++ ds :=
  (logged_upkeep settings s.log).advance ⟨#[], Array.append_empty.symm⟩

end Stream

end AsmExpand
