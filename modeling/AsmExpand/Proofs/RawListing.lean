import AsmExpand.Proofs.Blocks
import AsmExpand.Proofs.StringLimit
import AsmExpand.Proofs.Termination

/-!
# Raw listings

Read raw, a source is listed as it was scanned: the delivered tokens cut at the separators,
the empty pieces left out, and reported is what the feed finds in the scan, item by item
(`expandSourceRaw_lists_scan`).

A source without a function token is listed the same way outside of raw mode. Both ways of
reading take each token as the feed delivers it, so a stream that counts blocks and one that
is raw all along are twins to the end of the input (`Stream.Twins`). Only there do they
differ: the one that counts reports the blocks that are open.
-/

namespace AsmExpand

/-- What the feed reports of one item. -/
def Item.report? (limit : Nat) : Item → Option Diagnostic
  | .ok t => if t.isTooLong limit then some { span := t.span, cause := .stringTooLong } else none
  | .error e => some { span := e.span, cause := .malformed e.message }

/-- The feed reports item by item. -/
theorem Feed.reports_eq_filterMap (limit : Nat) (items : List Item) :
    (reports limit items).toList = items.filterMap (Item.report? limit) := by
  induction items with
  | nil => rfl
  | cons i items ih =>
    rw [List.filterMap_cons, ← ih]
    cases i with
    | ok t =>
      by_cases h : t.isTooLong limit = true
      · simp [reports, checkedLog, Item.report?, h, Diagnostics.report]
      · simp [reports, checkedLog, Item.report?, h]
    | error e => simp [reports, Item.report?]

/-- A line but for the mode it was read in. -/
def Line.place (l : Line) : Nat × List Token := (l.line, l.tokens)

namespace Stream

/-! ## Reading without regard to blocks -/

variable (settings : Settings)

/-- At the end of the input, an empty statement and its end change nothing. -/
theorem readFlatLines_eq (lines : Array Line) (s : Stream) :
    s.readFlatLines settings lines
      = ((s.statement settings).2.consumeSeparator settings).readFlatLines settings
          (addLine lines s (s.statement settings).1) := by
  by_cases hk : s.kind = .eof
  · have hstatement : s.statement settings = ([], s) := by
      rw [statement, dif_pos (by rw [hk]; rfl)]
    rw [hstatement]
    dsimp only
    rw [consumeSeparator_of_eof settings hk]
    rfl
  · rw [readFlatLines, dif_neg hk]

/-- **From one line to the next**, the scanned statements are listed. -/
theorem tokens_readFlatLines_of_raw {u : Stream} (hu : u.BetweenLines) (hr : 0 < u.rawDepth)
    (lines : Array Line) :
    ((u.consumeSeparator settings).readFlatLines settings lines).1.toList.map Line.tokens
      = lines.toList.map Line.tokens ++ u.statementsBehind settings := by
  rcases u.kind.isSeparator_iff.mp hu.separator with hk | hk
  · have hstatement : (u.advance settings).statement settings
        = (u.lineTokens settings, u.passed settings) :=
      statement_advance_of_passing settings hu.drained fun _ _ => Or.inl (decide_eq_true hr)
    have hquiet : (u.passed settings).Quiet := by
      have := ((Quiet.upkeep settings).invariant.statement
        ((Quiet.upkeep settings).advance hu.quiet)).1
      rwa [hstatement] at this
    have hend : AtLineEnd u u.rawDepth (u.passed settings) := ⟨rfl, rfl, rfl, rfl, hquiet⟩
    obtain ⟨hw, hless⟩ := hend.betweenLines hu hk
    have hline : (addLine lines (u.advance settings) (u.lineTokens settings)).toList.map Line.tokens
        = lines.toList.map Line.tokens
          ++ if (u.lineTokens settings).isEmpty then [] else [u.lineTokens settings] := by
      unfold addLine
      split
      · rw [List.append_nil]
      · simp
    rw [consumeSeparator_of_sep settings hk, readFlatLines_eq, hstatement]
    dsimp only
    rw [tokens_readFlatLines_of_raw hw hr, hline, hend.statementsBehind_eq hu hk, List.append_assoc]
  · rw [consumeSeparator_of_eof settings hk, statementsBehind, if_pos hk, List.append_nil,
      readFlatLines, dif_pos hk]
termination_by u.linesBehind

/-! ## Sources without functions -/

/-- No function token is to come. -/
def Plain (s : Stream) : Prop :=
  ∀ t : Token, .ok t ∈ s.feed.upcoming → t.kind.function? = none

/-- A token taken from such a feed calls nothing, and the rest is such a feed. -/
theorem Plain.fetch {s : Stream} (h : s.Plain) (settings : Settings) :
    (s.fetch settings).kind.function? = none ∧ (s.fetch settings).Plain := by
  rcases Feed.next_cases settings.limits.maxStringLength s.log s.feed with
    ⟨hk, hp, hi⟩ | ⟨faults, t, hup, hk⟩
  · refine ⟨Kind.function?_of_isSeparator (by rw [kind, Stream.fetch, hk]; rfl), fun t ht => ?_⟩
    rw [Feed.upcoming, Stream.fetch, hp, hi] at ht
    exact absurd ht List.not_mem_nil
  · refine ⟨?_, fun u hu => h u ?_⟩
    · rw [kind, Stream.fetch, hk]
      refine h t ?_
      rw [hup]
      exact List.mem_append_right _ List.mem_cons_self
    · rw [hup]
      exact List.mem_append_right _ (List.mem_cons_of_mem _ hu)

/-- The second stream is raw, and both are in the same place of a source without functions,
with the same reports behind them. -/
structure Twins (s t : Stream) : Prop where
  feed : t.feed = s.feed
  current : t.current = s.current
  log : t.log = s.log
  raw : 0 < t.rawDepth
  plain : s.Plain

namespace Twins

variable (limits : Limits) (symbols : SymbolTable) {s t : Stream}

/-- Nothing is expanded on either side. -/
theorem advance (h : Twins s t) :
    Twins (s.advance ⟨limits, symbols⟩) (t.advance { limits := limits }) := by
  obtain ⟨hcall, hplain⟩ := h.plain.fetch ⟨limits, symbols⟩
  rw [advance_of_call?_eq_none _ (call?_of_function?_eq_none hcall), advance_of_raw _ h.raw]
  refine ⟨?_, ?_, ?_, h.raw, hplain⟩
  · simp only [fetch, h.feed, h.log]
  · simp only [fetch, h.feed, h.log]
  · simp only [fetch, h.feed, h.log]

theorem simulation :
    Simulation id (Advance.full ⟨limits, symbols⟩) (Advance.full { limits := limits }) Twins where
  current := fun h => h.current
  step := fun h _ => h.advance limits symbols
  report := fun h span cause _ =>
    { h with log := congrArg (fun log : Diagnostics => log.report span cause) h.log }

theorem openBlock (h : Twins s t) : Twins s.openBlock t := by
  unfold Stream.openBlock
  split
  · exact { h with }
  · exact h

theorem closeBlock (h : Twins s t) (start : Stream) : Twins (Stream.closeBlock start s) t := by
  unfold Stream.closeBlock
  split
  · exact { h with }
  · exact h

/-- What is listed of a statement, but for the mode it was read in. -/
theorem addLine (h : Twins s t) {lines lines' : Array Line} (ts : List Token)
    (hlines : lines.toList.map Line.place = lines'.toList.map Line.place) :
    (Stream.addLine lines s ts).toList.map Line.place
      = (Stream.addLine lines' t ts).toList.map Line.place := by
  unfold Stream.addLine
  rw [h.current]
  split
  · exact hlines
  · simp [hlines, Line.place]

/-- **Twins are listed alike**, and the one that counts blocks reports those left open. -/
theorem readLines (h : Twins s t) {lines lines' : Array Line}
    (hlines : lines.toList.map Line.place = lines'.toList.map Line.place) :
    let r := s.readLines ⟨limits, symbols⟩ lines
    let r' := t.readFlatLines { limits := limits } lines'
    r.1.toList.map Line.place = r'.1.toList.map Line.place ∧
      ∃ n, r.2.log
        = r'.2.log ++ Array.replicate n { span := r'.2.current.span, cause := .unclosedBlock } := by
  have sim := simulation limits symbols
  fun_induction Stream.readLines ⟨limits, symbols⟩ lines s generalizing t lines' with
  | case1 lines s hs =>
    rw [readFlatLines, dif_pos (by rwa [sim.kind h])]
    refine ⟨hlines, s.rawDepth, ?_⟩
    dsimp only
    rw [log_reportOpenBlocks, h.log, h.current]
  | case2 lines s hs start =>
    rename_i r ih
    rw [readFlatLines, dif_neg (by rwa [sim.kind h])]
    have hstart : Twins start t := h.openBlock
    obtain ⟨htokens, hr⟩ := sim.statement hstart
    have htokens : (t.statement { limits := limits }).1 = r.1 :=
      htokens.trans (List.map_id _)
    refine ih (sim.consumeSeparator (fun h _ => h.advance limits symbols) (hr.closeBlock start)) ?_
    rw [htokens]
    exact hstart.addLine r.1 hlines

end Twins

end Stream

/-- **Raw runs list the scan, and sources without functions go through unchanged.** Read raw,
a source is listed statement by statement as it was scanned, with string constants cut that are
too long: one raw line for each statement, on the line of its tokens. Reported is what the scan
has to report, item by item. If no token of the scan is a function token, the source is listed
the same outside of raw mode, whatever the symbols, and reported is the same and then, at the
end, open blocks. -/
theorem expandSourceRaw_lists_scan (limits : Limits) (source : String) :
    let limit := limits.maxStringLength
    let items := (Scan.ofSource source).items
    let raw := expandSourceRaw limits source
    (raw.lines.map Line.tokens = statements ((Feed.tokens items).map (Feed.checked limit)) ∧
      ∀ l ∈ raw.lines, l.raw = true ∧ ∀ t ∈ l.tokens, t.span.line = l.line) ∧
    raw.diagnostics.toList = items.filterMap (Item.report? limit) ∧
    ((∀ t ∈ Feed.tokens items, t.kind.function? = none) → ∀ symbols,
      let full := expandSource ⟨limits, symbols⟩ source
      full.lines.map Line.place = raw.lines.map Line.place ∧
        ∃ unclosed, full.diagnostics = raw.diagnostics ++ unclosed ∧
          ∀ d ∈ unclosed, d.cause = .unclosedBlock) := by
  intro limit items raw
  refine ⟨⟨?_, fun l hl => ⟨(wellFormed_of_mem_expandSourceRaw hl).1,
    (inOrder_expandSourceRaw limits source).on l hl⟩⟩, ?_, fun plain symbols => ?_⟩
  · have hstart : (Stream.ofSource source).enterRaw.BetweenLines :=
      Stream.betweenLines_ofScan source rfl rfl rfl
    have hread := Stream.tokens_readFlatLines_of_raw { limits := limits } hstart Nat.one_pos #[]
    rw [← Feed.scanned_eq_map]
    exact hread
  · rw [diagnostics_expandSourceRaw, Feed.reports_eq_filterMap]
  · intro full
    have hstart : Stream.Twins (Stream.ofSource source) (Stream.ofSource source).enterRaw :=
      ⟨rfl, rfl, rfl, Nat.one_pos, fun t ht => plain t (Feed.mem_tokens.mpr ht)⟩
    obtain ⟨hlines, n, hlog⟩ := (hstart.advance limits symbols).readLines limits symbols
      (Eq.refl (List.map Line.place (#[] : Array Line).toList))
    refine ⟨hlines, _, hlog, fun d hd => ?_⟩
    rw [(Array.mem_replicate.mp hd).2]

/-- A source with a fault, a constant that is too long and a block that is left open. -/
theorem expandSourceRaw_lists_scan_block :
    let source := "x `\n\n.macro m\n\"long\""
    (∀ t ∈ Feed.tokens (Scan.ofSource source).items, t.kind.function? = none) ∧
    (expandSource ⟨{ maxStringLength := 2 }, {}⟩ source).lines.map Line.place
      = (expandSourceRaw { maxStringLength := 2 } source).lines.map Line.place := by
  intro source
  have plain : ∀ t ∈ Feed.tokens (Scan.ofSource source).items, t.kind.function? = none := by
    decide +kernel
  exact ⟨plain, ((expandSourceRaw_lists_scan { maxStringLength := 2 } source).2.2 plain {}).1⟩

end AsmExpand
