import AsmExpand.Proofs.Locality
import AsmExpand.Proofs.RawListing
import AsmExpand.Run.Report

/-!
# Where diagnostics stand

A report has the lines of its source, to show each diagnostic with the line it is on. The
scanner counts newlines and `splitLines` cuts at them, so every item of a scan is on one
of these lines (`Scan.onLine_of_mem`). The end of the input need not be: behind a last
newline it is on a line that the text does not have.

So the question is which diagnostics stand at the end of the input. No reader can tell one
place from another, so whatever is reported while reading is in a place that the scan has:
a map that leaves the places of the scan alone leaves all reports alone (`Unmoved`). If the
source ends with a newline, the end of the input becomes current only between statements.
What is read up to there would be read in the same way if the input ended anywhere else,
and so nothing is reported in that place but the blocks that are open.

`report_shows_lines` is the result.
-/

namespace AsmExpand

/-! ## The lines of a text -/

namespace LineCutter

theorem size_done_foldl (cs : List Char) (cut : LineCutter) :
    (cs.foldl next cut).done.size = cut.done.size + cs.count '\n' := by
  induction cs generalizing cut with
  | nil => rfl
  | cons c cs ih =>
    rw [List.foldl_cons, ih, next]
    by_cases hc : c = '\n'
    · rw [if_pos hc, Array.size_push, hc, List.count_cons_self]
      omega
    · rw [if_neg hc, List.count_cons_of_ne hc]

end LineCutter

/-- Whether a text has nothing behind its last newline. -/
def endsLine (text : String) : Bool := text.toList.getLast?.all (· = '\n')

theorem endsLine_iff (text : String) :
    endsLine text = true ↔ text = "" ∨ ∃ lines, text = lines ++ "\n" := by
  constructor
  · intro h
    rcases text.toList.eq_nil_or_concat with hnil | ⟨cs, c, hcs⟩
    · exact Or.inl (String.toList_eq_nil_iff.mp hnil)
    · have hc : c = '\n' := by simpa [endsLine, hcs] using h
      refine Or.inr ⟨String.ofList cs, String.toList_inj.mp ?_⟩
      rw [hcs, hc, String.toList_append, String.toList_ofList, List.concat_eq_append]
      rfl
  · rintro (rfl | ⟨lines, rfl⟩)
    · rfl
    · simp [endsLine]

theorem getLast?_of_endsLine {text : String} (h : endsLine text = true) (hne : text ≠ "") :
    text.toList.getLast? = some '\n' := by
  rcases (endsLine_iff text).mp h with he | ⟨lines, rfl⟩
  · exact absurd he hne
  · simp

/-- A text has a line for each newline, and one more if it does not end there. -/
theorem length_splitLines (text : String) :
    (splitLines text).length = text.toList.count '\n' + if endsLine text then 0 else 1 := by
  unfold splitLines LineCutter.finish endsLine
  rcases text.toList.eq_nil_or_concat with h | ⟨cs, c, h⟩
  · rw [h]
    rfl
  · have hsize := LineCutter.size_done_foldl cs {}
    rw [h, List.concat_eq_append, List.foldl_append, List.getLast?_append, List.count_append]
    generalize cs.foldl LineCutter.next {} = cut at *
    simp only [List.foldl_cons, List.foldl_nil, LineCutter.next]
    by_cases hc : c = '\n'
    · simp [hc, hsize]
    · simp [hc, hsize]

/-- Whether a place is on a line of a text. -/
def Span.OnLine (text : String) (p : Span) : Prop :=
  1 ≤ p.line ∧ p.line ≤ (splitLines text).length

namespace Scan

variable {source : String}

/-- **Every item is on a line of the text.** -/
theorem onLine_of_mem {i : Item} (hi : i ∈ (ofSource source).items) :
    (Item.span i).OnLine source := by
  have hline := (tiles_ofSource source).line i hi
  obtain ⟨_, hstart, hstop⟩ := (tiles_ofSource source).range i hi
  refine ⟨by omega, ?_⟩
  rw [length_splitLines, ← Utf8.count_newline_bytes]
  generalize (Item.span i).start (Utf8.bytes source) = start at *
  by_cases hends : endsLine source = true
  · rcases (endsLine_iff source).mp hends with rfl | ⟨lines, rfl⟩
    · rw [items_ofSource_empty] at hi
      cases hi
    · -- the last newline is not before the item
      rw [Utf8.bytes_append, show Utf8.bytes "\n" = [.newline] from rfl] at *
      rw [List.length_append, List.length_singleton] at hstop
      rw [List.take_append_of_le_length (by omega)] at hline
      have hle := (List.take_sublist start (Utf8.bytes lines)).count_le Byte.newline
      rw [if_pos hends, List.count_append, List.count_singleton_self]
      omega
  · have hle := (List.take_sublist start (Utf8.bytes source)).count_le Byte.newline
    rw [if_neg hends]
    omega

/-- The end of the input is behind the last newline. -/
theorem line_endSpan (source : String) :
    (ofSource source).endSpan.line = source.toList.count '\n' + 1 := by
  rw [ofSource_eq, Cursor.line_endSpan, ← Utf8.count_newline_bytes, Nat.add_comm]
  rfl

/-- What stands behind the last newline is a line, and the end of the input is on it. -/
theorem onLine_endSpan (h : ¬endsLine source = true) :
    (ofSource source).endSpan.OnLine source := by
  rw [Span.OnLine, line_endSpan, length_splitLines, if_neg h]
  omega

/-- If nothing stands there, it is on no line. -/
theorem line_endSpan_of_endsLine (h : endsLine source = true) :
    (ofSource source).endSpan.line = (splitLines source).length + 1 := by
  rw [line_endSpan, length_splitLines, if_pos h]

end Scan

/-! ## Reading at other places -/

/-- A place of a list as it is, and any other place moved along its line. -/
def Span.nudge (ps : List Span) (p : Span) : Span :=
  if p ∈ ps then p else { p with colEnd := p.colEnd + 1 }

namespace Span

variable {ps : List Span} {p : Span}

@[simp] theorem line_nudge : (p.nudge ps).line = p.line := by
  unfold nudge
  split <;> rfl

theorem nudge_of_mem (h : p ∈ ps) : p.nudge ps = p := if_pos h

theorem mem_of_nudge_eq (h : p.nudge ps = p) : p ∈ ps := by
  by_contra hp
  rw [nudge, if_neg hp] at h
  exact absurd (congrArg Span.colEnd h) (Nat.succ_ne_self _)

end Span

/-- A map that leaves the places of items alone leaves the items alone. -/
theorem Item.map_mapSpan_of_fixed {f : Span → Span} {items : List Item}
    (h : ∀ i ∈ items, f (Item.span i) = Item.span i) : items.map (Item.mapSpan f) = items := by
  refine (List.map_congr_left fun i hi => ?_).trans (List.map_id items)
  cases i with
  | ok t => exact congrArg (fun p => Except.ok { t with span := p }) (h _ hi)
  | error e => exact congrArg (fun p => Except.error { e with span := p }) (h _ hi)

namespace Stream

variable {f : Span → Span} {place : Span} {s : Stream} {source : String} (settings : Settings)

/-- No open block is reported yet, and a map leaves alone the places of what is. -/
structure Unmoved (f : Span → Span) (s : Stream) : Prop where
  quiet : s.Quiet
  log : s.log.map (Diagnostic.mapSpan f) = s.log

/-- Reading a statement and its end reports no open block. -/
theorem Quiet.consumeStatement (h : s.Quiet) :
    ((s.passStatement settings).consumeSeparator settings).Quiet := by
  have keep := Quiet.upkeep settings
  have hpass : (s.passStatement settings).Quiet :=
    (keep.invariant.statement h.openBlock).1.closeBlock _
  exact keep.consumeSeparator hpass (isSeparator_passStatement settings s) fun _ => hpass

theorem quiet_advance_ofSource : ((ofSource source).advance settings).Quiet :=
  (Quiet.upkeep settings).advance (betweenLines_ofScan source rfl rfl rfl).quiet

/-- A source is read in its own places to its end. -/
theorem exists_unmoved
    (hitems : ∀ i ∈ (Scan.ofSource source).items, f (Item.span i) = Item.span i)
    (hend : f (Scan.ofSource source).endSpan = (Scan.ofSource source).endSpan) :
    ∃ u, Unmoved f u ∧ f u.current.span = u.current.span ∧
      (expandSource settings source).diagnostics = (reportOpenBlocks u.rawDepth u).log := by
  -- the stream is its own image
  have hstart : Relocated f #[] (ofSource source) (ofSource source) :=
    ⟨rfl, (Item.map_mapSpan_of_fixed hitems).symm, hend.symm, rfl, by simp [ofSource, ofScan]⟩
  obtain ⟨u, ⟨hq, ha⟩, _, hread⟩ := exists_readLines_eq settings
    (P := fun s => s.Quiet ∧ Aligned f #[] s s)
    (fun h _ => ⟨h.1.consumeStatement settings,
      ((Relocated.blocks f #[] settings).passStatement h.2).consumeSeparator settings⟩)
    ⟨quiet_advance_ofSource settings, (Relocated.lockstep f #[] settings).advance hstart⟩ #[]
  refine ⟨u, ⟨hq, ?_⟩, (congrArg Token.span ha.current).symm, congrArg Stream.log hread⟩
  have hlog := ha.log
  rw [Array.empty_append] at hlog
  exact hlog.symm

/-- A partner reads the same items at mapped places, and has its end at `place`. -/
structure Partnered (f : Span → Span) (place : Span) (s : Stream) : Prop where
  quiet : s.Quiet
  partner : ∃ t, Aligned f #[] s t ∧
    (Together ⟨[], place⟩ s t ∨ HandedOver settings ⟨[], place⟩ s t)

variable {settings}

/-- The same items, with the end at its mapped place, are a partner of complete lines. -/
theorem partnered_ofSource (h : endsLine source = true)
    (hitems : ∀ i ∈ (Scan.ofSource source).items, f (Item.span i) = Item.span i) :
    Partnered settings f (f (Scan.ofSource source).endSpan)
      ((ofSource source).advance settings) := by
  have hrelocated : Relocated f #[] (ofSource source)
      (ofScan ⟨(Scan.ofSource source).items, f (Scan.ofSource source).endSpan⟩) :=
    ⟨rfl, (Item.map_mapSpan_of_fixed hitems).symm, rfl, rfl, by simp [ofSource, ofScan]⟩
  have hextends : Extends ⟨[], f (Scan.ofSource source).endSpan⟩ (ofSource source)
      (ofScan ⟨(Scan.ofSource source).items, f (Scan.ofSource source).endSpan⟩) :=
    ⟨rfl, by simp [ofSource, ofScan], rfl, rfl⟩
  have hup : EndsLine (ofSource source).feed.upcoming ∨ (ofSource source).feed.upcoming = [] := by
    rcases (endsLine_iff source).mp h with rfl | ⟨lines, rfl⟩
    · exact Or.inr Scan.items_ofSource_empty
    · exact Or.inl (EndsLine.ofSource lines)
  exact ⟨quiet_advance_ofSource settings, _,
    (Relocated.lockstep f #[] settings).advance hrelocated,
    together_or_handedOver settings hextends hup⟩

/-- Both go past a statement. -/
theorem Partnered.consumeStatement (h : Partnered settings f place s) (hk : s.kind ≠ .eof) :
    Partnered settings f place ((s.passStatement settings).consumeSeparator settings) := by
  obtain ⟨t, haligned, hjoined⟩ := h.partner
  have htogether := hjoined.resolve_right fun hover => hk hover.1
  refine ⟨h.quiet.consumeStatement settings,
    (t.passStatement settings).consumeSeparator settings, ?_, ?_⟩
  · exact ((Relocated.blocks f #[] settings).passStatement haligned).consumeSeparator settings
  · exact ((Extends.blocks _ settings).passStatement htogether).consumeSeparator
      (isSeparator_passStatement settings s) settings

/-- At the end the partner has the log of the stream, and also its image. -/
theorem Partnered.unmoved (h : Partnered settings f place s) (hk : s.kind = .eof) :
    Unmoved f s ∧ f s.current.span = place := by
  obtain ⟨t, haligned, hjoined⟩ := h.partner
  obtain ⟨_, v, hpushed, hscan, _, hlog, rfl⟩ :=
    hjoined.resolve_left fun htogether => htogether.endsLine.kind_ne_eof hk
  have hgone : v.feed.upcoming = [] := by rw [Feed.upcoming_eq, hpushed, hscan]; rfl
  rw [advance_of_upcoming_eq_nil settings hgone, hscan] at haligned
  have himage := haligned.log
  rw [Array.empty_append] at himage
  exact ⟨⟨h.quiet, himage.symm.trans hlog⟩, (congrArg Token.span haligned.current).symm⟩

/-- **Complete lines are read to their end whatever place that is.** -/
theorem exists_unmoved_of_endsLine (settings : Settings) (h : endsLine source = true)
    (hitems : ∀ i ∈ (Scan.ofSource source).items, f (Item.span i) = Item.span i) :
    ∃ u, Unmoved f u ∧ f u.current.span = f (Scan.ofSource source).endSpan ∧
      (expandSource settings source).diagnostics = (reportOpenBlocks u.rawDepth u).log := by
  obtain ⟨u, hu, hk, hread⟩ := exists_readLines_eq settings
    (fun h hk => Partnered.consumeStatement h hk) (partnered_ofSource h hitems) #[]
  obtain ⟨hunmoved, hspan⟩ := hu.unmoved hk
  exact ⟨u, hunmoved, hspan, congrArg Stream.log hread⟩

/-- What was reported in the end: what was read, in places that were left alone, and open
blocks. -/
theorem Unmoved.of_mem_log {ps : List Span} {u : Stream} (h : Unmoved (Span.nudge ps) u)
    {n : Nat} {d : Diagnostic} (hd : d ∈ (reportOpenBlocks n u).log) :
    d.cause ≠ .unclosedBlock ∧ d.span ∈ ps ∨
      d = { span := u.current.span, cause := .unclosedBlock } := by
  rw [log_reportOpenBlocks, Array.mem_append] at hd
  rcases hd with hd | hd
  · have hcause := Array.countP_eq_zero.mp h.quiet.log d hd
    have hspan := Array.map_inj_left.mp (h.log.trans (Array.map_id u.log).symm) d hd
    exact Or.inl ⟨by simpa using hcause, Span.mem_of_nudge_eq (congrArg Diagnostic.span hspan)⟩
  · exact Or.inr (Array.mem_replicate.mp hd).2

end Stream

/-! ## The lines of a report -/

/-- Whether a diagnostic is on a line of a text, or on the one behind the last newline if it
reports an open block there. -/
def Diagnostic.Stands (source : String) (d : Diagnostic) : Prop :=
  if d.cause = .unclosedBlock ∧ source.toList.getLast? = some '\n' then
    d.span.line = (splitLines source).length + 1
  else d.span.OnLine source

section

variable {source : String} {d : Diagnostic}

/-- In an empty source there is nothing to report. -/
theorem ne_empty_of_mem_expandSource {settings : Settings}
    (hd : d ∈ (expandSource settings source).diagnostics) : source ≠ "" := by
  rintro rfl
  have hup : (Stream.ofSource "").feed.upcoming = [] := Scan.items_ofSource_empty
  unfold expandSource at hd
  rw [Stream.advance_of_upcoming_eq_nil settings hup, Stream.readLines, dif_pos (by rfl)] at hd
  exact Array.not_mem_empty d hd

theorem stands_of_mem_expandSource (settings : Settings)
    (hd : d ∈ (expandSource settings source).diagnostics) : d.Stands source := by
  have hitem : ∀ {p}, p ∈ (Scan.ofSource source).items.map Item.span → p.OnLine source := by
    intro p hp
    obtain ⟨i, hi, rfl⟩ := List.mem_map.mp hp
    exact Scan.onLine_of_mem hi
  have hne := ne_empty_of_mem_expandSource hd
  unfold Diagnostic.Stands
  by_cases hends : endsLine source = true
  · obtain ⟨u, hu, hspan, hread⟩ := Stream.exists_unmoved_of_endsLine settings hends
      (f := Span.nudge ((Scan.ofSource source).items.map Item.span))
      fun i hi => Span.nudge_of_mem (List.mem_map_of_mem hi)
    rw [hread] at hd
    rcases hu.of_mem_log hd with ⟨hcause, hp⟩ | rfl
    · rw [if_neg fun h => hcause h.1]
      exact hitem hp
    · have hline := congrArg Span.line hspan
      rw [Span.line_nudge, Span.line_nudge, Scan.line_endSpan_of_endsLine hends] at hline
      rw [if_pos ⟨rfl, getLast?_of_endsLine hends hne⟩]
      exact hline
  · obtain ⟨u, hu, hspan, hread⟩ := Stream.exists_unmoved settings
      (f := Span.nudge ((Scan.ofSource source).endSpan ::
        (Scan.ofSource source).items.map Item.span))
      (fun i hi => Span.nudge_of_mem (List.mem_cons_of_mem _ (List.mem_map_of_mem hi)))
      (Span.nudge_of_mem List.mem_cons_self)
    rw [if_neg fun h => hends (by simp [endsLine, h.2])]
    have hplace : d.span ∈ (Scan.ofSource source).endSpan ::
        (Scan.ofSource source).items.map Item.span := by
      rw [hread] at hd
      rcases hu.of_mem_log hd with ⟨_, hp⟩ | rfl
      · exact hp
      · exact Span.mem_of_nudge_eq hspan
    rcases List.mem_cons.mp hplace with hp | hp
    · rw [hp]
      exact Scan.onLine_endSpan hends
    · exact hitem hp

/-- Read raw, a source has no diagnostics but those of its items. -/
theorem stands_of_mem_expandSourceRaw (limits : Limits)
    (hd : d ∈ (expandSourceRaw limits source).diagnostics) : d.Stands source := by
  rw [diagnostics_expandSourceRaw, ← Array.mem_toList_iff, Feed.reports_eq_filterMap] at hd
  obtain ⟨i, hi, hreport⟩ := List.mem_filterMap.mp hd
  have hitem : d.cause ≠ .unclosedBlock ∧ d.span = Item.span i := by
    cases i with
    | ok t =>
      rw [Item.report?] at hreport
      split at hreport
      · cases hreport
        exact ⟨by simp [Cause.unclosedBlock], rfl⟩
      · cases hreport
    | error e =>
      cases hreport
      rw [Scan.ofSource_eq] at hi
      exact ⟨Cursor.message_ne_of_mem_items _ hi, rfl⟩
  rw [Diagnostic.Stands, if_neg fun h => hitem.1 h.1, hitem.2]
  exact Scan.onLine_of_mem hi

/-- However a source is expanded, its diagnostics stand on its lines or behind them. -/
theorem stands_of_mem_report (c : Config) (file : String)
    (hd : d ∈ ((c.expand source).report file source).diagnostics) : d.Stands source := by
  obtain ⟨e, he, rfl⟩ := List.mem_map.mp hd
  rw [Array.mem_toList_iff, Config.expand] at he
  change e.Stands source
  split at he
  · exact stands_of_mem_expandSourceRaw _ he
  · exact stands_of_mem_expandSource _ he

end

/-- A diagnostic shown with a line. -/
def Diagnostic.shownWith (d : Diagnostic) (line : String) : String :=
  d.heading ++ "\n" ++ (padLeft 5 (Decimal.ofNat d.span.line) ++ " | " ++ line) ++ "\n" ++
    "ERROR: " ++ d.cause.message

theorem Diagnostic.formatWithContext_eq (d : Diagnostic) (lines : List String) (colour : Bool) :
    d.formatWithContext (some lines) colour
      = d.shownWith (match lines[d.span.line - 1]? with
        | some line => highlight line (some d.span.colStart) colour
        | none => "<source unavailable>") := rfl

/-- **Every diagnostic of a report is shown with its source line**, but for the reports of
open blocks if the source ends with a newline: those are on the line behind it, which is
none. With lines counted in 32 bits, this is about sources of fewer than 2^32 lines. -/
theorem report_shows_lines (c : Config) (file source : String) :
    let r := (c.expand source).report file source
    ∀ d ∈ r.diagnostics,
      if d.cause = .unclosedBlock ∧ source.toList.getLast? = some '\n' then
        d.span.line = r.sourceLines.length + 1 ∧
          ∀ colour, d.formatWithContext (some r.sourceLines) colour
            = d.shownWith "<source unavailable>"
      else
        1 ≤ d.span.line ∧ d.span.line ≤ r.sourceLines.length ∧
          ∃ line, r.sourceLines[d.span.line - 1]? = some line ∧
            ∀ colour, d.formatWithContext (some r.sourceLines) colour
              = d.shownWith (highlight line (some d.span.colStart) colour) := by
  intro r d hd
  have hstands := stands_of_mem_report c file hd
  unfold Diagnostic.Stands at hstands
  have hlines : r.sourceLines = splitLines source := rfl
  rw [hlines]
  split
  · rename_i hopen
    rw [if_pos hopen] at hstands
    refine ⟨hstands, fun colour => ?_⟩
    rw [Diagnostic.formatWithContext_eq, List.getElem?_eq_none (by omega)]
  · rename_i hopen
    rw [if_neg hopen] at hstands
    obtain ⟨hfirst, hlast⟩ := hstands
    have hlt : d.span.line - 1 < (splitLines source).length := by omega
    refine ⟨hfirst, hlast, _, List.getElem?_eq_getElem hlt, fun colour => ?_⟩
    rw [Diagnostic.formatWithContext_eq, List.getElem?_eq_getElem hlt]

/-- Without a newline behind it the line of an open block is shown. -/
theorem report_shows_lines_unfinished :
    let r := ((⟨["a.s"], none, {}, false⟩ : Config).expand "x\n.macro m").report "a.s" "x\n.macro m"
    let d : Diagnostic := { span := ⟨2, 9, 9⟩, cause := .unclosedBlock, file := some "a.s" }
    d ∈ r.diagnostics ∧ ∃ line, r.sourceLines[1]? = some line ∧
      ∀ colour, d.formatWithContext (some r.sourceLines) colour
        = d.shownWith (highlight line (some 9) colour) := by
  intro r d
  have hd : d ∈ r.diagnostics := by decide +kernel
  have hshown := report_shows_lines ⟨["a.s"], none, {}, false⟩ "a.s" "x\n.macro m" d hd
  rw [if_neg (by decide)] at hshown
  exact ⟨hd, hshown.2.2⟩

/-- With a newline behind it the report of the open block has no line to be shown with. -/
theorem report_lacks_line :
    let r := ((⟨["a.s"], none, {}, false⟩ : Config).expand ".macro m\n").report "a.s" ".macro m\n"
    ∃ d ∈ r.diagnostics, ¬d.span.line ≤ r.sourceLines.length ∧
      d.formatWithContext (some r.sourceLines) false
        = "a.s:2: ERROR\n    2 | <source unavailable>\nERROR: '.ENDMACRO' expected" := by
  refine ⟨{ span := ⟨2, 1, 1⟩, cause := .unclosedBlock, file := some "a.s" }, ?_, ?_, ?_⟩
  · decide +kernel
  · decide +kernel
  · decide +kernel

end AsmExpand
