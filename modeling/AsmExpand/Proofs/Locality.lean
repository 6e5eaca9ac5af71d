import AsmExpand.Proofs.Relocation

/-!
# Expansion is local to lines

A source of complete lines, with another source behind it, reads as if the two
were read one after the other.

Two streams are compared: one reads the first source alone, and the other reads
it with the second one behind (`Extends`). As long as the input of the first ends
with a separator (`EndsLine`) neither can come to its end inside a line, so they
go on in lockstep, whatever is wrong with the line they are on. Calls do not
break this. Only a token inside a line makes anything read on, so a call never
goes past a separator, and if a separator stands behind a window it comes again
before anything else. When the last separator of the first source is current,
nothing is pending any more, and the second stream is about to read the second
source (`Stream.readLines_extends`).

From there on it reads the second source some lines further down, which is what
`Aligned.readLines` is about. A block that is still open would make a difference,
and so the first source must have none. `expandSource_append` is the result.
-/

namespace AsmExpand

/-! ## Inputs that end with a separator -/

/-- Items of which the last is a separator, with no end of the input among them. -/
inductive EndsLine : List Item → Prop where
  | last {t : Token} : t.kind = .sep → EndsLine [.ok t]
  | token {t : Token} {items : List Item} :
      t.kind ≠ .eof → EndsLine items → EndsLine (.ok t :: items)
  | fault {e : ScanError} {items : List Item} : EndsLine items → EndsLine (.error e :: items)

namespace EndsLine

variable {t : Token} {items : List Item}

theorem kind_ne_eof (h : EndsLine (.ok t :: items)) : t.kind ≠ .eof := by
  cases h with
  | last hk => simp [hk]
  | token hk _ => exact hk

/-- Only a separator can be the last item. -/
theorem tail (h : EndsLine (.ok t :: items)) : EndsLine items ∨ t.kind = .sep ∧ items = [] := by
  cases h with
  | last hk => exact Or.inr ⟨hk, rfl⟩
  | token _ h => exact Or.inl h

theorem tail_of_not_isSeparator (h : EndsLine (.ok t :: items)) (hk : t.kind.isSeparator = false) :
    EndsLine items := by
  rcases h.tail with h | ⟨hs, _⟩
  · exact h
  · exact absurd hs (Kind.ne_of_isSeparator hk rfl)

theorem append {items front : List Item} (h : EndsLine items)
    (hf : ∀ x, .ok x ∈ front → x.kind ≠ .eof) :
    EndsLine (front ++ items) := by
  induction front with
  | nil => exact h
  | cons i front ih =>
    have hi := ih fun x hx => hf x (List.mem_cons_of_mem _ hx)
    cases i with
    | ok x => exact .token (hf x List.mem_cons_self) hi
    | error e => exact .fault hi

/-- The items of complete lines end with a separator. -/
theorem ofSource (lines : String) : EndsLine (Scan.ofSource (lines ++ "\n")).items := by
  rw [Scan.items_ofSource_newline]
  exact (EndsLine.last rfl).append fun x hx => Cursor.kind_ne_eof_of_mem_items _ hx

end EndsLine

/-! ## A source with another one behind it -/

/-- The second stream holds what the first one does, with a scan behind it. -/
structure Extends (behind : Scan) (s t : Stream) : Prop where
  pushed : t.feed.pushed = s.feed.pushed
  scan : t.feed.scan = ⟨s.feed.scan.items ++ behind.items, behind.endSpan⟩
  rawDepth : t.rawDepth = s.rawDepth
  log : t.log = s.log

/-- Both streams are at the same token, and the input of the first ends with a
separator. -/
structure Together (behind : Scan) (s t : Stream) : Prop extends Extends behind s t where
  current : t.current = s.current
  endsLine : EndsLine (.ok s.current :: s.feed.upcoming)

namespace Extends

variable {behind : Scan} {s t : Stream}

theorem isRaw (h : Extends behind s t) : t.isRaw = s.isRaw := by
  rw [Stream.isRaw, h.rawDepth]
  rfl

theorem reportAt (h : Extends behind s t) (span : Span) (cause : Cause) :
    Extends behind (s.reportAt span cause) (t.reportAt span cause) :=
  { h with log := by rw [Stream.reportAt, h.log]; rfl }

theorem push (h : Extends behind s t) (ts : List Token) :
    Extends behind (s.push ts) (t.push ts) :=
  { h with
    pushed := by rw [Stream.push, Stream.push, Feed.pushed_push, Feed.pushed_push, h.pushed] }

/-- Items that end with a separator are drawn in the same way with others behind them. -/
theorem draw_append (behind : Scan) (limit : Nat) (endSpan : Span) {items : List Item}
    (h : EndsLine items) :
    ∀ log, Feed.draw limit behind.endSpan log (items ++ behind.items)
        = ⟨(Feed.draw limit endSpan log items).token, (Feed.draw limit endSpan log items).log,
            ⟨[], ⟨(Feed.draw limit endSpan log items).feed.scan.items ++ behind.items,
              behind.endSpan⟩⟩⟩ ∧
      (Feed.draw limit endSpan log items).feed.pushed = [] ∧
      EndsLine (.ok (Feed.draw limit endSpan log items).token ::
        (Feed.draw limit endSpan log items).feed.upcoming) := by
  induction h with
  | @last t hk =>
    intro log
    exact ⟨rfl, rfl, .last (by rw [← hk]; exact Feed.kind_checked limit t)⟩
  | @token t items hk h ih =>
    intro log
    exact ⟨rfl, rfl, .token (by rw [Feed.draw, Feed.kind_checked]; exact hk) h⟩
  | fault h ih =>
    intro log
    exact ih _

/-- While the input of the first stream lasts, the same token comes next. -/
theorem fetch (h : Extends behind s t) (hup : EndsLine s.feed.upcoming) (settings : Settings) :
    Together behind (s.fetch settings) (t.fetch settings) := by
  have hpushed := h.pushed
  cases hs : s.feed.pushed with
  | nil =>
    rw [hs] at hpushed
    rw [Feed.upcoming_eq, hs] at hup
    obtain ⟨hdraw, hd, hends⟩ := draw_append behind settings.limits.maxStringLength
      s.feed.scan.endSpan hup s.log
    rw [Stream.fetch_of_drained hs, Stream.fetch_of_drained hpushed, h.scan, h.log]
    simp only [List.map_nil, List.nil_append] at hdraw hd hends
    simp only [hdraw]
    exact ⟨⟨by rw [hd]; rfl, rfl, h.rawDepth, rfl⟩, rfl, hends⟩
  | cons x xs =>
    rw [hs] at hpushed
    rw [Feed.upcoming_eq, hs] at hup
    obtain ⟨hx, hlog, hxs, hscan⟩ := Stream.fetch_of_pushed hs settings
    obtain ⟨hx', hlog', hxs', hscan'⟩ := Stream.fetch_of_pushed hpushed settings
    refine ⟨⟨?_, ?_, h.rawDepth, ?_⟩, ?_, ?_⟩
    · rw [hxs, hxs']
    · rw [hscan, hscan', h.scan]
    · rw [hlog, hlog', h.log]
    · rw [hx, hx']
    · rw [Feed.upcoming_eq, hx, hxs, hscan]
      exact hup

/-- **While the input of the first stream lasts, both go on in lockstep.** -/
theorem lockstep (behind : Scan) (settings : Settings) :
    Lockstep id settings (fun s t => Extends behind s t ∧ EndsLine s.feed.upcoming)
      (Together behind) where
  take := by
    intro s t h hc
    have ht := h.1.fetch h.2 settings
    refine ⟨?_, ht⟩
    rwa [Stream.call?, ht.isRaw, Stream.kind, ht.current]
  call := by
    intro s t fn h hc
    have ht := h.1.fetch h.2 settings
    have hk := Stream.kind_of_call? hc
    refine ⟨?_, ht.toExtends, ?_⟩
    · rwa [Stream.call?, ht.isRaw, Stream.kind, ht.current]
    · refine ht.endsLine.tail_of_not_isSeparator ?_
      rw [show (s.fetch settings).current.kind = .call fn from hk]
      rfl
  current := fun h => h.current
  ahead := fun h hk => ⟨h.toExtends, h.endsLine.tail_of_not_isSeparator hk⟩
  report := fun h span cause _ => ⟨h.reportAt span cause, h.current, h.endsLine⟩
  literal := by
    intro s t h hk value _
    -- a parenthesis is not the last item, so it may turn into anything
    refine ⟨{ h.toExtends with }, by rw [h.current], ?_⟩
    refine .token (by simp [Token.ofText]) (h.endsLine.tail_of_not_isSeparator ?_)
    rw [show s.current.kind = .rightParen from hk]
    rfl
  window := by
    intro s t h ts hts
    -- the current token may be the separator that ends the input, and is pushed back then
    rw [show ts.map (Token.mapSpan id) = ts from List.map_id _, h.current]
    refine ⟨h.push _, ?_⟩
    have hends : EndsLine (ts.map .ok ++ .ok s.current :: s.feed.upcoming) := by
      refine h.endsLine.append ?_
      intro x hx
      obtain ⟨y, hy, he⟩ := List.mem_map.mp hx
      obtain ⟨u, ⟨v, hu⟩, hcur, _⟩ := hts y hy
      rw [← Except.ok.inj he, ← hcur]
      exact hu.endsLine.kind_ne_eof
    rw [Stream.push, Feed.upcoming_push, List.map_append, List.append_assoc]
    exact hends

/-- They do so between statements as well. -/
theorem blocks (behind : Scan) (settings : Settings) :
    BlockSimulation id settings (Together behind) where
  toSimulation := (lockstep behind settings).simulation
  rawDepth := fun h => h.rawDepth
  setRawDepth := fun h _ => { h with rawDepth := rfl }

end Extends

/-! ## Handing over -/

/-- The first stream is at the end of its input, and the second one has just gone on
to the scan behind it. -/
def HandedOver (settings : Settings) (behind : Scan) (s t : Stream) : Prop :=
  s.kind = .eof ∧ ∃ v : Stream, v.feed.pushed = [] ∧ v.feed.scan = behind ∧
    v.rawDepth = s.rawDepth ∧ v.log = s.log ∧ t = v.advance settings

namespace Stream

variable {behind : Scan} {s t : Stream} (settings : Settings)

/-- At the end of its input a stream stays there. -/
theorem advance_of_upcoming_eq_nil {s : Stream} (hup : s.feed.upcoming = []) :
    s.advance settings =
      { s with
        feed := ⟨[], ⟨[], s.feed.scan.endSpan⟩⟩
        current := .atEof s.feed.scan.endSpan } := by
  rw [Feed.upcoming_eq, List.append_eq_nil_iff, List.map_eq_nil_iff] at hup
  obtain ⟨hpushed, hitems⟩ := hup
  have hf : s.fetch settings =
      { s with
        feed := ⟨[], ⟨[], s.feed.scan.endSpan⟩⟩
        current := .atEof s.feed.scan.endSpan } := by
    rw [fetch_of_drained hpushed, hitems]
    rfl
  rw [← hf]
  refine advance_of_call?_eq_none settings (call?_of_function?_eq_none ?_)
  rw [hf]
  rfl

/-- At the end of its input the first stream stops, and the second goes on. -/
theorem handedOver_advance (h : Extends behind s t) (hup : s.feed.upcoming = []) :
    HandedOver settings behind (s.advance settings) (t.advance settings) := by
  rw [advance_of_upcoming_eq_nil settings hup]
  rw [Feed.upcoming_eq, List.append_eq_nil_iff, List.map_eq_nil_iff] at hup
  obtain ⟨hpushed, hitems⟩ := hup
  refine ⟨rfl, t, ?_, ?_, h.rawDepth, h.log, rfl⟩
  · rw [h.pushed, hpushed]
  · rw [h.scan, hitems, List.nil_append]

/-- From one line to the next, or over to the scan behind. -/
theorem together_or_handedOver (h : Extends behind s t)
    (hup : EndsLine s.feed.upcoming ∨ s.feed.upcoming = []) :
    Together behind (s.advance settings) (t.advance settings) ∨
      HandedOver settings behind (s.advance settings) (t.advance settings) := by
  rcases hup with hup | hup
  · exact Or.inl ((Extends.lockstep behind settings).advance ⟨h, hup⟩)
  · exact Or.inr (handedOver_advance settings h hup)

end Stream

namespace Together

variable {behind : Scan} {s t : Stream}

theorem addLine (h : Together behind s t) (lines : Array Line) (ts : List Token) :
    Stream.addLine lines t ts = Stream.addLine lines s ts := by
  rw [Stream.addLine, h.isRaw, h.current]
  rfl

/-- Behind a separator the lines go on, or there are no more. -/
theorem consumeSeparator (h : Together behind s t) (hk : s.kind.isSeparator = true)
    (settings : Settings) :
    Together behind (s.consumeSeparator settings) (t.consumeSeparator settings) ∨
      HandedOver settings behind (s.consumeSeparator settings) (t.consumeSeparator settings) := by
  have hsep : s.kind = .sep := by
    rcases s.kind.isSeparator_iff.mp hk with he | he
    · exact he
    · exact absurd he h.endsLine.kind_ne_eof
  unfold Stream.consumeSeparator Advance.consumeSeparator
  rw [(Extends.blocks behind settings).kind h, hsep]
  refine Stream.together_or_handedOver settings h.toExtends ?_
  rcases h.endsLine.tail with hup | ⟨_, hup⟩
  · exact Or.inl hup
  · exact Or.inr hup

end Together

namespace Stream

variable {behind : Scan} {s t : Stream} (settings : Settings)

theorem mem_log_reportOpenBlocks {d : Diagnostic} (n : Nat) (hd : d ∈ s.log) :
    d ∈ (reportOpenBlocks n s).log := by
  induction n generalizing s with
  | zero => exact hd
  | succ n ih => exact ih (Array.mem_push_of_mem _ hd)

/-- If no block is found to be open, none is. -/
theorem reportOpenBlocks_of_closed {n : Nat}
    (h : ∀ d ∈ (reportOpenBlocks n s).log, d.cause ≠ .unclosedBlock) :
    n = 0 := by
  cases n with
  | zero => rfl
  | succ n =>
    have hd := mem_log_reportOpenBlocks (s := s.report .unclosedBlock) n Array.mem_push_self
    exact absurd rfl (h _ hd)

/-- **A source with another one behind it is read like the first, and then the other
is read**, if no block is open in between. -/
theorem readLines_extends {lines : Array Line}
    (h : Together behind s t ∨ HandedOver settings behind s t)
    (closed : ∀ d ∈ (s.readLines settings lines).2.log, d.cause ≠ .unclosedBlock) :
    ∃ v : Stream, v.feed.pushed = [] ∧ v.feed.scan = behind ∧ v.rawDepth = 0 ∧
      v.log = (s.readLines settings lines).2.log ∧
      t.readLines settings lines
        = (v.advance settings).readLines settings (s.readLines settings lines).1 := by
  have blocks := Extends.blocks behind settings
  fun_induction readLines settings lines s generalizing t with
  | case1 lines s hs =>
    rcases h with h | ⟨_, v, hpushed, hscan, hdepth, hlog, rfl⟩
    · exact absurd hs h.endsLine.kind_ne_eof
    · -- nothing is reported at the end, so the logs still agree
      have hzero := reportOpenBlocks_of_closed closed
      rw [hzero]
      exact ⟨v, hpushed, hscan, by rw [hdepth, hzero], hlog, rfl⟩
  | case2 lines s hs start =>
    rename_i r ih
    rcases h with h | ⟨he, _⟩
    · have hstart := blocks.openBlock h
      obtain ⟨htokens, hr⟩ := blocks.statement hstart
      have hk : (closeBlock start r.2).kind.isSeparator = true := by
        rw [kind_closeBlock]
        exact isSeparator_statement settings start
      obtain ⟨v, hpushed, hscan, hdepth, hlog, hv⟩ :=
        ih ((blocks.closeBlock hstart hr).consumeSeparator hk settings) closed
      refine ⟨v, hpushed, hscan, hdepth, hlog, ?_⟩
      rw [readLines, dif_neg (by rwa [blocks.kind h])]
      dsimp only
      rw [htokens, show List.map (Token.mapSpan id) _ = _ from List.map_id _, hstart.addLine]
      exact hv
    · exact absurd he hs

end Stream

/-- **Expansion is local to lines.** A source of complete lines that leaves no block
open, with another source behind it, gives the lines and diagnostics of the first
and then those of the second, as many lines further down as the first has newlines. With
lines counted in 32 bits, this is about sources that have fewer than 2^32 lines together. -/
theorem expandSource_append (settings : Settings) {a : String}
    (complete : a = "" ∨ ∃ lines, a = lines ++ "\n")
    (closed : ∀ d ∈ (expandSource settings a).diagnostics, d.cause ≠ .unclosedBlock) (b : String) :
    let n := a.toList.count '\n'
    (expandSource settings (a ++ b)).lines
        = (expandSource settings a).lines ++ (expandSource settings b).lines.map (Line.down n) ∧
      (expandSource settings (a ++ b)).diagnostics
        = (expandSource settings a).diagnostics
          ++ (expandSource settings b).diagnostics.map (Diagnostic.mapSpan (Span.down n)) := by
  intro n
  -- both streams before their first token
  have hextends : Extends
      ⟨(Scan.ofSource b).items.map (Item.mapSpan (Span.down n)), (Scan.ofSource b).endSpan.down n⟩
      (Stream.ofSource a) (Stream.ofSource (a ++ b)) :=
    ⟨rfl, Scan.ofSource_append complete b, rfl, rfl⟩
  have hup : EndsLine (Stream.ofSource a).feed.upcoming ∨
      (Stream.ofSource a).feed.upcoming = [] := by
    rcases complete with rfl | ⟨lines, rfl⟩
    · exact Or.inr Scan.items_ofSource_empty
    · exact Or.inl (EndsLine.ofSource lines)
  obtain ⟨v, hpushed, hscan, hdepth, hlog, hv⟩ := Stream.readLines_extends settings
    (Stream.together_or_handedOver settings hextends hup) closed
  -- the second source alone, and where the first was left
  have hrelocated : Relocated (Span.down n) (expandSource settings a).diagnostics
      (Stream.ofSource b) v := by
    refine ⟨hpushed, ?_, ?_, hdepth, ?_⟩
    · rw [hscan]
      rfl
    · rw [hscan]
      rfl
    · rw [hlog]
      simp [expandSource, Stream.ofSource, Stream.ofScan]
  have haligned := (Relocated.lockstep _ _ settings).advance hrelocated
  obtain ⟨hlines, hends⟩ := haligned.readLines settings
    (((Stream.ofSource a).advance settings).readLines settings #[]).1 #[]
  rw [List.map_toArray, List.map_nil, Array.append_empty] at hlines hends
  constructor
  · change (Stream.readLines settings #[] _).1.toList = _
    rw [hv, hlines, Array.toList_append, Array.toList_map]
    rfl
  · change (Stream.readLines settings #[] _).2.log = _
    rw [hv]
    exact hends.log

/-- A call without an end on the first line changes nothing on the second. -/
theorem expandSource_append_unfinished :
    (∃ lines, ".CONCAT(1\n" = lines ++ "\n") ∧
    (∀ d ∈ (expandSource {} ".CONCAT(1\n").diagnostics, d.cause ≠ .unclosedBlock) ∧
    (expandSource {} (".CONCAT(1\n" ++ "x")).lines
      = (expandSource {} ".CONCAT(1\n").lines ++ (expandSource {} "x").lines.map (Line.down 1) := by
  have complete : ∃ lines, ".CONCAT(1\n" = lines ++ "\n" := ⟨".CONCAT(1", by decide⟩
  have closed : ∀ d ∈ (expandSource {} ".CONCAT(1\n").diagnostics, d.cause ≠ .unclosedBlock := by
    decide +kernel
  refine ⟨complete, closed, ?_⟩
  rw [(expandSource_append {} (Or.inr complete) closed "x").1,
    show ".CONCAT(1\n".toList.count '\n' = 1 by decide]

end AsmExpand
