import AsmExpand.Proofs.Delivery
import AsmExpand.Proofs.Lockstep
import AsmExpand.Proofs.Scanning
import AsmExpand.Proofs.Statements

/-!
# Relocation

Nothing that reads a source looks at where a token stands. Two streams that hold
the same tokens at other places, the places of the one mapped to those of the
other, go on in lockstep (`Relocated.lockstep`). So they read the same statements
and report the same causes, at the mapped places, whatever was reported before.
For places further down this is `Aligned.readLines`: the same lines, further down.
-/

namespace AsmExpand

/-- A diagnostic with its place mapped. -/
def Diagnostic.mapSpan (f : Span → Span) (d : Diagnostic) : Diagnostic :=
  { d with span := f d.span }

/-- The same line, some lines further down. -/
def Line.down (n : Nat) (l : Line) : Line :=
  { l with line := l.line + n, tokens := l.tokens.map (Token.mapSpan (Span.down n)) }

namespace Diagnostics

/-- To report at a mapped place is to map what is reported. -/
theorem report_mapped (f : Span → Span) (base log : Diagnostics) (span : Span) (cause : Cause) :
    report (base ++ log.map (Diagnostic.mapSpan f)) (f span) cause
      = base ++ (report log span cause).map (Diagnostic.mapSpan f) := by
  simp [report, Diagnostic.mapSpan]

end Diagnostics

namespace Feed

variable (f : Span → Span) (base : Diagnostics) (limit : Nat)

theorem checked_mapSpan (t : Token) :
    checked limit (t.mapSpan f) = (checked limit t).mapSpan f := by
  unfold checked
  rw [show (t.mapSpan f).isTooLong limit = t.isTooLong limit from rfl]
  split
  · rfl
  · rfl

theorem checkedLog_mapped (log : Diagnostics) (t : Token) :
    checkedLog limit (base ++ log.map (Diagnostic.mapSpan f)) (t.mapSpan f)
      = base ++ (checkedLog limit log t).map (Diagnostic.mapSpan f) := by
  unfold checkedLog
  rw [show (t.mapSpan f).isTooLong limit = t.isTooLong limit from rfl]
  split
  · exact Diagnostics.report_mapped f base log t.span .stringTooLong
  · rfl

/-- Items at other places are drawn in the same way. -/
theorem draw_mapped (endSpan : Span) (log : Diagnostics) (items : List Item) :
    draw limit (f endSpan) (base ++ log.map (Diagnostic.mapSpan f)) (items.map (Item.mapSpan f))
      = ⟨(draw limit endSpan log items).token.mapSpan f,
          base ++ (draw limit endSpan log items).log.map (Diagnostic.mapSpan f),
          ⟨[], ⟨(draw limit endSpan log items).feed.scan.items.map (Item.mapSpan f), f endSpan⟩⟩⟩ ∧
      (draw limit endSpan log items).feed.pending = [] ∧
      (draw limit endSpan log items).feed.scan.endSpan = endSpan := by
  fun_induction draw limit endSpan log items with
  | case1 log => exact ⟨rfl, rfl, rfl⟩
  | case2 log t items =>
    refine ⟨?_, rfl, rfl⟩
    rw [List.map_cons, Item.mapSpan, draw, checked_mapSpan, checkedLog_mapped]
  | case3 log e items ih =>
    rw [List.map_cons, Item.mapSpan, draw, Diagnostics.report_mapped]
    exact ih

end Feed

/-- The second stream holds what the first one does, at mapped places, behind a log
of its own. -/
structure Relocated (f : Span → Span) (base : Diagnostics) (s t : Stream) : Prop where
  pushed : t.feed.pushed = s.feed.pushed.map (Token.mapSpan f)
  items : t.feed.scan.items = s.feed.scan.items.map (Item.mapSpan f)
  endSpan : t.feed.scan.endSpan = f s.feed.scan.endSpan
  rawDepth : t.rawDepth = s.rawDepth
  log : t.log = base ++ s.log.map (Diagnostic.mapSpan f)

namespace Relocated

variable {f : Span → Span} {base : Diagnostics} {s t : Stream}

theorem isRaw (h : Relocated f base s t) : t.isRaw = s.isRaw := by
  rw [Stream.isRaw, h.rawDepth]
  rfl

theorem reportAt (h : Relocated f base s t) (span : Span) (cause : Cause) :
    Relocated f base (s.reportAt span cause) (t.reportAt (f span) cause) :=
  { h with
    log := by
      rw [Stream.reportAt, h.log]
      exact Diagnostics.report_mapped f base s.log span cause }

theorem push (h : Relocated f base s t) (ts : List Token) :
    Relocated f base (s.push ts) (t.push (ts.map (Token.mapSpan f))) :=
  { h with
    pushed := by
      rw [Stream.push, Stream.push, Feed.pushed_push, Feed.pushed_push, h.pushed, List.map_append] }

end Relocated

/-- The current token is the same as well, at its mapped place. -/
structure Aligned (f : Span → Span) (base : Diagnostics) (s t : Stream) : Prop
    extends Relocated f base s t where
  current : t.current = s.current.mapSpan f

/-- The same token comes next. -/
theorem Relocated.fetch {f : Span → Span} {base : Diagnostics} {s t : Stream}
    (h : Relocated f base s t) (settings : Settings) :
    Aligned f base (s.fetch settings) (t.fetch settings) := by
  have hpushed := h.pushed
  cases hs : s.feed.pushed with
  | nil =>
    -- both draw from their scans
    rw [hs, List.map_nil] at hpushed
    obtain ⟨hdraw, hpending, hend⟩ := Feed.draw_mapped f base settings.limits.maxStringLength
      s.feed.scan.endSpan s.log s.feed.scan.items
    rw [Stream.fetch_of_drained hs, Stream.fetch_of_drained hpushed, h.items, h.endSpan, h.log,
      hdraw]
    refine ⟨⟨?_, rfl, ?_, h.rawDepth, rfl⟩, rfl⟩
    · simp [Feed.pushed, hpending]
    · exact congrArg f hend.symm
  | cons x xs =>
    rw [hs, List.map_cons] at hpushed
    obtain ⟨hx, hlog, hxs, hscan⟩ := Stream.fetch_of_pushed hs settings
    obtain ⟨hx', hlog', hxs', hscan'⟩ := Stream.fetch_of_pushed hpushed settings
    refine ⟨⟨?_, ?_, ?_, h.rawDepth, ?_⟩, ?_⟩
    · rw [hxs, hxs']
    · rw [hscan, hscan', h.items]
    · rw [hscan, hscan', h.endSpan]
    · rw [hlog, hlog', h.log]
    · rw [hx, hx']

/-- **Streams at other places go on in lockstep.** -/
theorem Relocated.lockstep (f : Span → Span) (base : Diagnostics) (settings : Settings) :
    Lockstep f settings (Relocated f base) (Aligned f base) where
  take := by
    intro s t h hc
    have ha := h.fetch settings
    refine ⟨?_, ha⟩
    rwa [Stream.call?, ha.isRaw, Stream.kind, ha.current]
  call := by
    intro s t fn h hc
    have ha := h.fetch settings
    refine ⟨?_, ha.toRelocated⟩
    rwa [Stream.call?, ha.isRaw, Stream.kind, ha.current]
  current := fun h => h.current
  ahead := fun h _ => h.toRelocated
  report := fun h span cause _ => ⟨h.reportAt span cause, h.current⟩
  literal := by
    intro s t h _ value _
    refine ⟨{ h.toRelocated with }, ?_⟩
    rw [h.current]
    rfl
  window := by
    intro s t h ts _
    have := h.push (ts ++ [s.current])
    rwa [List.map_append, List.map_singleton, ← h.current] at this

/-- They do so between statements as well. -/
theorem Relocated.blocks (f : Span → Span) (base : Diagnostics) (settings : Settings) :
    BlockSimulation f settings (Aligned f base) where
  toSimulation := (lockstep f base settings).simulation
  rawDepth := fun h => h.rawDepth
  setRawDepth := fun h _ => { h with rawDepth := rfl }

namespace Aligned

variable {f : Span → Span} {base : Diagnostics} {s t : Stream}

/-- The ends of statements are passed on both sides. -/
theorem consumeSeparator (h : Aligned f base s t) (settings : Settings) :
    Aligned f base (s.consumeSeparator settings) (t.consumeSeparator settings) := by
  have lock := Relocated.lockstep f base settings
  exact lock.simulation.consumeSeparator (fun h _ => lock.advance h.toRelocated) h

theorem addLine {n : Nat} (h : Aligned (Span.down n) base s t) (front lines : Array Line)
    (ts : List Token) :
    Stream.addLine (front ++ lines.map (Line.down n)) t (ts.map (Token.mapSpan (Span.down n)))
      = front ++ (Stream.addLine lines s ts).map (Line.down n) := by
  unfold Stream.addLine
  rw [List.isEmpty_map, h.isRaw, h.current]
  split
  · rfl
  · simp [Line.down, Span.down]

/-- Open blocks are reported on both sides. -/
theorem reportOpenBlocks (h : Aligned f base s t) (n : Nat) :
    Aligned f base (Stream.reportOpenBlocks n s) (Stream.reportOpenBlocks n t) := by
  induction n generalizing s t with
  | zero => exact h
  | succ n ih =>
    -- a report at the current token of one side is one at that of the other
    have hr := h.reportAt s.current.span .unclosedBlock
    rw [show f s.current.span = t.current.span by rw [h.current]; rfl] at hr
    exact ih ⟨hr, h.current⟩

/-- **A source further down reads as the same lines further down**, behind whatever
was read and reported before. -/
theorem readLines {n : Nat} (h : Aligned (Span.down n) base s t) (settings : Settings)
    (front lines : Array Line) :
    (t.readLines settings (front ++ lines.map (Line.down n))).1
        = front ++ (s.readLines settings lines).1.map (Line.down n) ∧
      Aligned (Span.down n) base (s.readLines settings lines).2
        (t.readLines settings (front ++ lines.map (Line.down n))).2 := by
  have blocks := Relocated.blocks (Span.down n) base settings
  fun_induction Stream.readLines settings lines s generalizing t with
  | case1 lines s hs =>
    rw [Stream.readLines, dif_pos (by rwa [blocks.kind h]), h.rawDepth]
    exact ⟨rfl, h.reportOpenBlocks s.rawDepth⟩
  | case2 lines s hs start =>
    rename_i r ih
    rw [Stream.readLines, dif_neg (by rwa [blocks.kind h])]
    have hstart := blocks.openBlock h
    obtain ⟨htokens, hr⟩ := blocks.statement hstart
    dsimp only
    rw [htokens, hstart.addLine]
    exact ih ((blocks.closeBlock hstart hr).consumeSeparator settings)

end Aligned

end AsmExpand
