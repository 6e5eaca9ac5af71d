import AsmExpand.Proofs.CarriageReturns
import AsmExpand.Proofs.LineTokens
import AsmExpand.Proofs.Relocation
import AsmExpand.Proofs.StringLimit

/-!
# Styles of newlines

With a carriage return before each newline a source has the same tokens in the same places,
but for the separators, which stand one column further right, and its faults are on the same
lines. `Scan.shifted` is that change of places. A stream of the one source and a stream of the
other go on in lockstep under it (`Stream.Along.lockstep`), and what they report is alike.

No token of a line is a separator, so none of them has moved: both sources have the very same
lines (`expandSource_withReturns`).
-/

namespace AsmExpand

/-- Diagnostics on the same line with the same cause, the text of an open string apart. -/
structure Diagnostic.Alike (d e : Diagnostic) : Prop where
  line : e.span.line = d.span.line
  cause : d.cause.Alike e.cause

/-- Items in the same order: the same token at its mapped place, or the same fault. -/
inductive Item.Along (f : Span → Span) : Item → Item → Prop where
  | token (t : Token) : Item.Along f (.ok t) (.ok (t.mapSpan f))
  | fault {e e' : ScanError} : e'.span.line = e.span.line →
      Cause.Alike (.malformed e.message) (.malformed e'.message) →
      Item.Along f (.error e) (.error e')

/-- Reports that are alike, one by one. -/
def Diagnostics.Alike (log log' : Diagnostics) : Prop :=
  List.Forall₂ Diagnostic.Alike log.toList log'.toList

theorem Diagnostics.Alike.report {log log' : Diagnostics} (h : log.Alike log') {span span' : Span}
    {cause cause' : Cause} (hs : span'.line = span.line) (hc : cause.Alike cause') :
    (log.report span cause).Alike (log'.report span' cause') := by
  unfold Diagnostics.Alike Diagnostics.report
  rw [Array.toList_push, Array.toList_push]
  exact List.rel_append h (.cons ⟨hs, hc⟩ .nil)

/-- A token inside a line is not at a place that is mapped elsewhere. -/
def Token.Unmoved (f : Span → Span) (t : Token) : Prop :=
  t.kind.isSeparator = false → f t.span = t.span

/-! ## Feeds -/

namespace Feed

variable {f : Span → Span} (hf : ∀ p, (f p).line = p.line)

include hf in
theorem checkedLog_along (limit : Nat) {log log' : Diagnostics} (h : log.Alike log') (t : Token) :
    (checkedLog limit log t).Alike (checkedLog limit log' (t.mapSpan f)) := by
  unfold checkedLog
  rw [show (t.mapSpan f).isTooLong limit = t.isTooLong limit from rfl]
  split
  · exact h.report (hf t.span) (Or.inl rfl)
  · exact h

include hf in
/-- Both sides draw the same token and leave the same items. -/
theorem draw_along (limit : Nat) (endSpan : Span) {items items' : List Item}
    (h : List.Forall₂ (Item.Along f) items items') :
    ∀ {log log' : Diagnostics}, log.Alike log' →
      let d := draw limit endSpan log items
      let d' := draw limit (f endSpan) log' items'
      d'.token = d.token.mapSpan f ∧ d.log.Alike d'.log ∧
        (d.feed.pushed = [] ∧ d'.feed.pushed = []) ∧
        List.Forall₂ (Item.Along f) d.feed.scan.items d'.feed.scan.items ∧
        d'.feed.scan.endSpan = f d.feed.scan.endSpan := by
  induction h with
  | nil => exact fun hlog => ⟨rfl, hlog, ⟨rfl, rfl⟩, .nil, rfl⟩
  | @cons i i' items items' hi hitems ih =>
    intro log log' hlog
    cases hi with
    | token t =>
      exact ⟨checked_mapSpan f limit t, checkedLog_along hf limit hlog t, ⟨rfl, rfl⟩, hitems, rfl⟩
    | fault hline hcause => exact ih (hlog.report hline hcause)

theorem draw_unmoved (limit : Nat) (endSpan : Span) (log : Diagnostics) {items : List Item}
    (h : ∀ t, .ok t ∈ items → Token.Unmoved f t) :
    let d := draw limit endSpan log items
    Token.Unmoved f d.token ∧ ∀ t, .ok t ∈ d.feed.scan.items → Token.Unmoved f t := by
  fun_induction draw limit endSpan log items with
  | case1 => exact ⟨fun hk => absurd hk (by simp [Token.atEof, Kind.isSeparator]), h⟩
  | case2 log t items =>
    refine ⟨fun hk => ?_, fun u hu => h u (List.mem_cons_of_mem _ hu)⟩
    rw [kind_checked] at hk
    rw [span_checked]
    exact h t List.mem_cons_self hk
  | case3 log e items ih => exact ih fun u hu => h u (List.mem_cons_of_mem _ hu)

end Feed

namespace Stream

/-- The second stream holds what the first one does, with its separators at mapped places, and
what was reported is alike. -/
structure Along (f : Span → Span) (s t : Stream) : Prop where
  pushed : t.feed.pushed = s.feed.pushed.map (Token.mapSpan f)
  items : List.Forall₂ (Item.Along f) s.feed.scan.items t.feed.scan.items
  endSpan : t.feed.scan.endSpan = f s.feed.scan.endSpan
  rawDepth : t.rawDepth = s.rawDepth
  log : s.log.Alike t.log
  unmovedPushed : ∀ x ∈ s.feed.pushed, Token.Unmoved f x
  unmovedScan : ∀ x, .ok x ∈ s.feed.scan.items → Token.Unmoved f x

/-- The current token is the same as well. -/
structure AlongAt (f : Span → Span) (s t : Stream) : Prop extends Along f s t where
  current : t.current = s.current.mapSpan f
  unmoved : Token.Unmoved f s.current

namespace Along

variable {f : Span → Span} {s t : Stream}

theorem fetch (hf : ∀ p, (f p).line = p.line) (h : Along f s t) (settings : Settings) :
    AlongAt f (s.fetch settings) (t.fetch settings) := by
  have hpushed := h.pushed
  cases hs : s.feed.pushed with
  | nil =>
    -- both draw from their scans
    rw [hs, List.map_nil] at hpushed
    obtain ⟨htoken, hlog, ⟨hp, hp'⟩, hitems, hend⟩ := Feed.draw_along hf
      settings.limits.maxStringLength s.feed.scan.endSpan h.items h.log
    obtain ⟨hcurrent, hscan⟩ := Feed.draw_unmoved settings.limits.maxStringLength
      s.feed.scan.endSpan s.log h.unmovedScan
    rw [fetch_of_drained hs, fetch_of_drained hpushed, h.endSpan]
    refine ⟨⟨?_, hitems, hend, h.rawDepth, hlog, ?_, hscan⟩, htoken, hcurrent⟩
    · dsimp only
      rw [hp, hp']
      rfl
    · dsimp only
      rw [hp]
      simp
  | cons x xs =>
    rw [hs, List.map_cons] at hpushed
    obtain ⟨hx, hlog, hxs, hscan⟩ := fetch_of_pushed hs settings
    obtain ⟨hx', hlog', hxs', hscan'⟩ := fetch_of_pushed hpushed settings
    have hunmoved := h.unmovedPushed
    rw [hs] at hunmoved
    refine ⟨⟨?_, ?_, ?_, h.rawDepth, ?_, ?_, ?_⟩, ?_, ?_⟩
    · rw [hxs, hxs']
    · rw [hscan, hscan']
      exact h.items
    · rw [hscan, hscan', h.endSpan]
    · rw [hlog, hlog']
      exact h.log
    · rw [hxs]
      exact fun y hy => hunmoved y (List.mem_cons_of_mem _ hy)
    · rw [hscan]
      exact h.unmovedScan
    · rw [hx, hx']
    · rw [hx]
      exact hunmoved x List.mem_cons_self

theorem isRaw (h : Along f s t) : t.isRaw = s.isRaw := by
  rw [Stream.isRaw, h.rawDepth]
  rfl

theorem reportAt (hf : ∀ p, (f p).line = p.line) (h : Along f s t) (span : Span) (cause : Cause) :
    Along f (s.reportAt span cause) (t.reportAt (f span) cause) :=
  { h with log := h.log.report (hf span) (Or.inl rfl) }

theorem push (h : Along f s t) {ts : List Token} (hts : ∀ x ∈ ts, Token.Unmoved f x) :
    Along f (s.push ts) (t.push (ts.map (Token.mapSpan f))) :=
  { h with
    pushed := by
      rw [Stream.push, Stream.push, Feed.pushed_push, Feed.pushed_push, h.pushed, List.map_append]
    unmovedPushed := by
      rw [Stream.push, Feed.pushed_push]
      exact List.forall_mem_append.mpr ⟨hts, h.unmovedPushed⟩ }

/-- **Streams of both styles go on in lockstep.** -/
theorem lockstep (hf : ∀ p, (f p).line = p.line) (settings : Settings) :
    Lockstep f settings (Along f) (AlongAt f) where
  take := by
    intro s t h hc
    have ha := h.fetch hf settings
    refine ⟨?_, ha⟩
    rwa [Stream.call?, ha.isRaw, Stream.kind, ha.current]
  call := by
    intro s t fn h hc
    have ha := h.fetch hf settings
    refine ⟨?_, ha.toAlong⟩
    rwa [Stream.call?, ha.isRaw, Stream.kind, ha.current]
  current := fun h => h.current
  ahead := fun h _ => h.toAlong
  report := fun h span cause _ => ⟨h.reportAt hf span cause, h.current, h.unmoved⟩
  literal := by
    intro s t h hk value _
    refine ⟨{ h.toAlong with }, ?_, fun _ => ?_⟩
    · rw [h.current]
      rfl
    · exact h.unmoved (by rw [show s.current.kind = .rightParen from hk]; rfl)
  window := by
    intro s t h ts hts
    have hall : ∀ x ∈ ts ++ [s.current], Token.Unmoved f x := by
      refine List.forall_mem_append.mpr ⟨fun x hx => ?_, fun x hx => ?_⟩
      · obtain ⟨u, ⟨v, hu⟩, rfl, _⟩ := hts x hx
        exact hu.unmoved
      · rw [List.mem_singleton.mp hx]
        exact h.unmoved
    have := h.push hall
    rwa [List.map_append, List.map_singleton, ← h.current] at this

/-- They do so to the end of the source. -/
theorem source (hf : ∀ p, (f p).line = p.line) (settings : Settings) :
    SourceSimulation f settings (AlongAt f) where
  toSimulation := (lockstep hf settings).simulation
  rawDepth := fun h => h.rawDepth
  setRawDepth := fun h _ => { h with rawDepth := rfl }
  line := hf
  cross := fun h _ => (lockstep hf settings).advance h.toAlong
  unclosed := by
    intro s t h
    have hr := h.reportAt hf s.current.span .unclosedBlock
    rw [show f s.current.span = t.current.span by rw [h.current]; rfl] at hr
    exact ⟨hr, h.current, h.unmoved⟩

/-- The tokens of a line have not moved, so neither has the line. -/
theorem mapSpan_of_mem_readLines (hf : ∀ p, (f p).line = p.line) (settings : Settings)
    (h : AlongAt f s t) (lines : Array Line) (hl : ∀ l ∈ lines, l.mapSpan f = l) :
    ∀ l ∈ (s.readLines settings lines).1, l.mapSpan f = l := by
  have sim := source hf settings
  fun_induction Stream.readLines settings lines s generalizing t with
  | case1 => exact hl
  | case2 lines s hk start =>
    rename_i r ih
    have hstart := sim.openBlock h
    have hlisted := (sim.invariant.statement ⟨_, hstart⟩).2
    refine ih (sim.consumeSeparator sim.cross (sim.closeBlock hstart (sim.statement hstart).2))
      (forall_mem_addLine hl fun _ => ?_)
    have hsame : r.1.map (Token.mapSpan f) = r.1 := by
      refine (List.map_congr_left fun x hx => ?_).trans (List.map_id _)
      obtain ⟨u, ⟨v, hu⟩, rfl, hk⟩ := hlisted x hx
      rw [Token.mapSpan, hu.unmoved hk]
      rfl
    rw [Line.mapSpan, hsame]

end Along

end Stream

/-! ## Sources -/

/-- Where the places of a scan are with carriage returns before the newlines: separators one
column further right, and everything else where it was. -/
def Scan.shifted (scan : Scan) (p : Span) : Span :=
  if ∃ t ∈ Feed.tokens scan.items, t.kind = .sep ∧ t.span = p then
    ⟨p.line, p.colStart + 1, p.colEnd + 1⟩
  else p

namespace Scan

theorem line_shifted (scan : Scan) (p : Span) : (scan.shifted p).line = p.line := by
  unfold shifted
  split
  · rfl
  · rfl

/-- No token inside a line is at the place of a separator. -/
theorem unmoved_shifted (source : String) {t : Token} (ht : .ok t ∈ (ofSource source).items) :
    t.Unmoved (ofSource source).shifted := by
  intro hk
  unfold shifted
  rw [if_neg]
  rintro ⟨u, hu, hsep, hspan⟩
  cases eq_of_span_eq source (Feed.mem_tokens.mp hu) ht hspan
  rw [hsep] at hk
  cases hk

/-- The scan with carriage returns has the same items along, separators shifted. -/
theorem along_ofSource_withReturns (source : String) :
    List.Forall₂ (Item.Along (ofSource source).shifted) (ofSource source).items
      (ofSource (withReturns source)).items := by
  have h := (List.forall₂_and_left (p := (· ∈ (ofSource source).items)) _ _).mpr
    ⟨fun _ hi => hi, (ofSource_withReturns source).1⟩
  refine h.imp fun i j ⟨hi, hij⟩ => ?_
  cases hij with
  | @token t hk =>
    have hsame : t.mapSpan (ofSource source).shifted = t := by
      rw [Token.mapSpan, unmoved_shifted source hi hk]
    conv => rhs; rw [← hsame]
    exact .token t
  | separator place =>
    have hshift : (Cursor.separator place).mapSpan (ofSource source).shifted
        = Cursor.separator { place with colStart := place.colStart + 1 } := by
      unfold Token.mapSpan shifted
      rw [if_pos ⟨_, Feed.mem_tokens.mpr hi, rfl, rfl⟩]
      rfl
    rw [← hshift]
    exact .token _
  | fault hline hcause => exact .fault hline hcause

/-- The end of the source has not moved. -/
theorem shifted_endSpan (source : String) :
    (ofSource source).shifted (ofSource source).endSpan = (ofSource source).endSpan := by
  unfold shifted
  rw [if_neg]
  rintro ⟨t, ht, _, hspan⟩
  exact span_ne_endSpan source (Feed.mem_tokens.mp ht) hspan

end Scan

/-- **The style of newlines does not matter.** With a carriage return before each newline, a
source has the same lines, and as many diagnostics, each on the same line and with the same
cause, the text of an open string apart. -/
theorem expandSource_withReturns (settings : Settings) (source : String) :
    (expandSource settings (withReturns source)).lines = (expandSource settings source).lines ∧
      List.Forall₂ Diagnostic.Alike (expandSource settings source).diagnostics.toList
        (expandSource settings (withReturns source)).diagnostics.toList := by
  have hf := (Scan.ofSource source).line_shifted
  have hstart : Stream.Along (Scan.ofSource source).shifted (Stream.ofSource source)
      (Stream.ofSource (withReturns source)) := by
    refine ⟨rfl, Scan.along_ofSource_withReturns source, ?_, rfl, .nil, ?_, ?_⟩
    · exact (Scan.ofSource_withReturns source).2.trans (Scan.shifted_endSpan source).symm
    · exact fun t ht => absurd ht List.not_mem_nil
    · exact fun t ht => Scan.unmoved_shifted source ht
  have hfirst := (Stream.Along.lockstep hf settings).advance hstart
  obtain ⟨hlines, hend⟩ := (Stream.Along.source hf settings).readLines hfirst #[]
  rw [Array.map_empty] at hlines hend
  have hsame := Stream.Along.mapSpan_of_mem_readLines hf settings hfirst #[] (by simp)
  refine ⟨?_, hend.log⟩
  change (Stream.readLines settings #[] _).1.toList = _
  rw [hlines, Array.toList_map]
  exact (List.map_congr_left fun l hl => hsame l (Array.mem_toList_iff.mp hl)).trans (List.map_id _)

end AsmExpand
