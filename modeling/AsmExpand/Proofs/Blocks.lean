import AsmExpand.Proofs.LineEnds
import AsmExpand.Proofs.Places
import AsmExpand.Proofs.Session
import Mathlib.Data.List.TakeWhile

/-!
# Macro blocks

Which statements of a source are listed raw can be told from its scan alone: cut the
scanned tokens into `statements`, and count over them how many blocks are open. A
statement in a block, or one that opens a block, is listed as it was scanned; any other
is listed expanded, so that its tokens arise from the scanned ones (`ListedAs`).

The stream does not count over statements. It enters raw mode at the first token of one
and leaves it at the end of another, and reads one token ahead between them. What makes
the two counts agree is that a statement ends where its line does, with nothing pushed:
each line is then read from a drained feed at the depth that the statements before it
have left (`Stream.statement_step`), and the lines follow by induction on the scan
(`Stream.readLines_blocks`). A token function at the start of a line would be expanded
before it is known how the line begins, and so there must be none outside of blocks.

`expandSource_blocks` is the result, with the number of blocks reported as unclosed.
-/

namespace AsmExpand

/-! ## Statements of a scan -/

/-- The statements of delivered tokens: what stands between separators, if anything does. -/
def statements (ts : List Token) : List (List Token) :=
  (ts.splitOnP fun t => decide (t.kind = .sep)).filter fun s => !s.isEmpty

namespace Blocks

/-- Whether a statement starts with a token of a kind. -/
def startsWith (k : Kind) (statement : List Token) : Bool :=
  statement.head?.any fun t => decide (t.kind = k)

/-- The number of open blocks after a statement, from that before it. -/
def depthAfter (depth : Nat) (statement : List Token) : Nat :=
  if startsWith .macroStart statement then depth + 1
  else if startsWith .macroEnd statement then depth - 1
  else depth

/-- Statements, each with the number of blocks that are open before it. -/
def withDepths (depth : Nat) : List (List Token) → List (Nat × List Token)
  | [] => []
  | s :: ss => (depth, s) :: withDepths (depthAfter depth s) ss

/-- How a statement is listed: as it was scanned in a block and where it opens one, and
expanded outside. -/
def ListedAs (p : Nat × List Token) (l : Line) : Prop :=
  if 0 < p.1 ∨ startsWith .macroStart p.2 = true then l.raw = true ∧ l.tokens = p.2
  else l.raw = false ∧ Arises l.tokens p.2

/-- Outside of blocks no statement starts with a token function. -/
def CallFree (depth : Nat) (ss : List (List Token)) : Prop :=
  ∀ p ∈ withDepths depth ss, p.1 = 0 → ∀ t ∈ p.2.head?, t.kind.function? = none

end Blocks

open Blocks

/-- Tokens without a separator are one statement, or none. -/
theorem statements_of_line {ts : List Token} (h : ∀ t ∈ ts, t.kind.isSeparator = false) :
    statements ts = if ts.isEmpty then [] else [ts] := by
  have hsplit : ts.splitOnP (fun t => decide (t.kind = .sep)) = [ts] :=
    List.splitOnP_eq_singleton fun t ht => decide_eq_false (Kind.ne_of_isSeparator (h t ht) rfl)
  unfold statements
  rw [hsplit]
  cases ts with
  | nil => rfl
  | cons t ts => rfl

/-- The first line is the first statement, if it is not empty. -/
theorem statements_of_line_append {ts us : List Token} {sep : Token}
    (h : ∀ t ∈ ts, t.kind.isSeparator = false) (hs : sep.kind = .sep) :
    statements (ts ++ sep :: us) = (if ts.isEmpty then [] else [ts]) ++ statements us := by
  have hsplit : (ts ++ sep :: us).splitOnP (fun t => decide (t.kind = .sep))
      = ts :: us.splitOnP fun t => decide (t.kind = .sep) :=
    List.splitOnP_append_cons_of_forall_mem
      (fun t ht => decide_eq_false (Kind.ne_of_isSeparator (h t ht) rfl)) sep (decide_eq_true hs) us
  unfold statements
  rw [hsplit]
  cases ts with
  | nil => rfl
  | cons t ts => rfl

/-! ## Reports of open blocks -/

namespace Diagnostics

@[simp] theorem countOf_report (ds : Diagnostics) (span : Span) (cause c : Cause) :
    (ds.report span cause).countOf c = ds.countOf c + if cause = c then 1 else 0 := by
  simp [countOf, report, Array.countP_push]

end Diagnostics

/-- No fault of the scanner reads like the report of an open block. -/
theorem ScanFault.message_ne (f : ScanFault) : Cause.malformed f.message ≠ .unclosedBlock := by
  intro h
  rw [Cause.unclosedBlock, Cause.malformed.injEq] at h
  cases f with
  | unterminated read =>
    have hchars : ("Unterminated string: " ++ read).toList = "'.ENDMACRO' expected".toList :=
      congrArg String.toList h
    rw [String.toList_append] at hchars
    have hhead := congrArg List.head? hchars
    cases hhead
  | illegalCharacter => exact absurd h (by decide)
  | illegalHexConstant => exact absurd h (by decide)
  | illegalDigits => exact absurd h (by decide)
  | illegalCharConstant => exact absurd h (by decide)
  | badHexEscape => exact absurd h (by decide)

/-- A fault in a scan reads like no report of an open block. -/
theorem Cursor.message_ne_of_mem_items (c : Cursor) {e : ScanError} (he : .error e ∈ c.items) :
    Cause.malformed e.message ≠ .unclosedBlock := by
  refine forall_mem_items (I := fun _ => True)
    (P := fun i => ∀ e, i = .error e → Cause.malformed e.message ≠ .unclosedBlock)
    (fun {c b rest} _ _ => ⟨fun e he => ?_, trivial⟩) trivial _ he e rfl
  rcases item_cases c.skipGap b rest with ⟨_, hi⟩ | ⟨_, ⟨k, l, hk, hi⟩ | ⟨f, hi⟩⟩
  · rw [hi] at he
    cases he
  · rw [hi] at he
    cases he
  · rw [hi] at he
    cases he
    exact f.message_ne

namespace Stream

/-- No open block has been reported, and no fault to come reads like such a report. -/
structure Quiet (s : Stream) : Prop where
  log : s.log.countOf .unclosedBlock = 0
  faults : ∀ e, .error e ∈ s.feed.scan.items → Cause.malformed e.message ≠ .unclosedBlock

namespace Quiet

theorem draw (limit : Nat) (endSpan : Span) {items : List Item}
    (hf : ∀ e, .error e ∈ items → Cause.malformed e.message ≠ .unclosedBlock) :
    ∀ {log : Diagnostics}, log.countOf .unclosedBlock = 0 →
      (Feed.draw limit endSpan log items).log.countOf .unclosedBlock = 0 ∧
      ∀ e, .error e ∈ (Feed.draw limit endSpan log items).feed.scan.items →
        Cause.malformed e.message ≠ .unclosedBlock := by
  induction items with
  | nil => exact fun hlog => ⟨hlog, hf⟩
  | cons i items ih =>
    intro log hlog
    have hf' := fun e he => hf e (List.mem_cons_of_mem _ he)
    cases i with
    | ok t =>
      refine ⟨?_, hf'⟩
      unfold Feed.draw Feed.checkedLog
      dsimp only
      split
      · rw [Diagnostics.countOf_report, hlog, if_neg (by simp [Cause.unclosedBlock])]
      · exact hlog
    | error e =>
      refine ih hf' ?_
      rw [Diagnostics.countOf_report, hlog, if_neg (hf e List.mem_cons_self)]

theorem fetch {s : Stream} (h : s.Quiet) (settings : Settings) : (s.fetch settings).Quiet := by
  cases hp : s.feed.pushed with
  | nil =>
    rw [fetch_of_drained hp]
    obtain ⟨hl, hf⟩ := draw settings.limits.maxStringLength s.feed.scan.endSpan h.faults h.log
    exact ⟨hl, hf⟩
  | cons t ts =>
    obtain ⟨_, hlog, _, hscan⟩ := fetch_of_pushed hp settings
    exact ⟨by rw [hlog]; exact h.log, by rw [hscan]; exact h.faults⟩

/-- Reading a line reports no open block. -/
theorem upkeep (settings : Settings) : Upkeep settings Quiet Quiet where
  take := fun h _ => h.fetch settings
  call := fun h _ => h.fetch settings
  ahead := fun h _ => h
  report := by
    intro s h span cause hc
    refine ⟨?_, h.faults⟩
    have hne : cause ≠ .unclosedBlock := by
      intro e
      rw [e] at hc
      cases hc
    rw [reportAt, Diagnostics.countOf_report, h.log, if_neg hne]
  literal := fun h _ _ _ => ⟨h.log, h.faults⟩
  window := fun h _ _ => ⟨h.log, h.faults⟩

theorem openBlock {s : Stream} (h : s.Quiet) : s.openBlock.Quiet := by
  unfold Stream.openBlock
  split
  · exact ⟨h.log, h.faults⟩
  · exact h

theorem closeBlock {s : Stream} (h : s.Quiet) (start : Stream) : (closeBlock start s).Quiet := by
  unfold Stream.closeBlock
  split
  · exact ⟨h.log, h.faults⟩
  · exact h

end Quiet

/-- What the report of open blocks adds: the same again for each, at the current token. -/
theorem log_reportOpenBlocks (n : Nat) (s : Stream) :
    (reportOpenBlocks n s).log
      = s.log ++ Array.replicate n { span := s.current.span, cause := .unclosedBlock } := by
  induction n generalizing s with
  | zero => exact Array.append_empty.symm
  | succ n ih =>
    rw [reportOpenBlocks, ih]
    apply Array.ext'
    simp [report, reportAt, Diagnostics.report, List.replicate_succ]

/-- Each open block is reported once. -/
theorem countOf_reportOpenBlocks (n : Nat) (s : Stream) :
    (reportOpenBlocks n s).log.countOf .unclosedBlock = s.log.countOf .unclosedBlock + n := by
  induction n generalizing s with
  | zero => rfl
  | succ n ih =>
    rw [reportOpenBlocks, ih]
    simp only [report, reportAt, Diagnostics.countOf_report, if_true]
    omega

/-! ## From one line to the next -/

variable (settings : Settings)

theorem rawDepth_statement (s : Stream) : (s.statement settings).2.rawDepth = s.rawDepth := by
  have inv : Invariant (Advance.full settings) (fun u => u.rawDepth = s.rawDepth) :=
    ⟨fun h _ => (rawDepth_advance settings _).trans h, fun h _ _ _ => h⟩
  exact (inv.statement rfl).1

/-- The stream is at the first token `t` of the first line of `v`, and `ts` follow it. -/
structure AtFirst (v : Stream) (t : Token) (ts : List Token) (s : Stream) : Prop where
  current : s.current = t
  inLine : s.kind.isSeparator = false
  drained : s.feed.pushed = []
  lineTokens : s.lineTokens settings = ts
  passed : s.passed settings = v.passed settings
  rawDepth : s.rawDepth = v.rawDepth

/-- The stream is at the separator that ends the first line of `v`, nothing pushed, with
`depth` blocks open. -/
structure AtLineEnd (v : Stream) (depth : Nat) (u : Stream) : Prop where
  current : u.current = v.feed.scan.firstLine.stop
  drained : u.feed.pushed = []
  scan : u.feed.scan = v.feed.scan.firstLine.behind
  rawDepth : u.rawDepth = depth
  quiet : u.Quiet

variable {settings} {v : Stream} {t : Token} {ts : List Token}

/-- The first token of a line becomes current as it was scanned, if it calls nothing there. -/
theorem atFirst_advance (hp : v.feed.pushed = []) (hts : v.lineTokens settings = t :: ts)
    (hcall : v.rawDepth = 0 → t.kind.function? = none) :
    AtFirst settings v t ts (v.advance settings) := by
  rcases fetch_line settings hp with ⟨hnil, _⟩ | ⟨hk, hp', hs, hpassed⟩
  · rw [hts] at hnil
    cases hnil
  · obtain ⟨rfl, rfl⟩ := List.cons.inj (hts.symm.trans hs)
    have hnone : (v.fetch settings).call? = none := by
      cases hd : v.rawDepth with
      | zero => exact call?_of_function?_eq_none (hcall hd)
      | succ n =>
        have hr : (v.fetch settings).rawDepth = n + 1 := hd
        exact call?_of_passing (Or.inl (by simp [isRaw, hr]))
    rw [advance_of_call?_eq_none settings hnone]
    exact ⟨rfl, hk, hp', rfl, hpassed, rfl⟩

/-- The rest of a line, the separator that ends it, unless that is the end of the input,
and what is behind it. -/
theorem exists_ahead_eq (settings : Settings) {s : Stream} (hp : s.feed.pushed = []) :
    ∃ rest, s.ahead settings = s.lineTokens settings ++
      if s.feed.scan.firstLine.stop.kind = .eof then []
      else s.feed.scan.firstLine.stop :: rest := by
  have hline : ∀ x ∈ s.lineTokens settings, decide (x.kind ≠ .eof) = true := fun x hx =>
    decide_eq_true (Kind.ne_of_isSeparator (not_isSeparator_of_mem_lineTokens settings hx) rfl)
  rw [ahead, Feed.delivered_eq, hp, List.nil_append]
  rcases s.scanned_eq settings with hcut | ⟨hcut, he⟩
  · rw [hcut, List.takeWhile_append_of_pos hline, List.takeWhile_cons]
    by_cases he : s.feed.scan.firstLine.stop.kind = .eof
    · exact ⟨[], by simp [he]⟩
    · exact ⟨_, by rw [decide_eq_true he, if_pos rfl, if_neg he]⟩
  · exact ⟨[], by rw [hcut, if_pos he, List.append_nil, List.takeWhile_eq_self_iff.mpr hline]⟩

namespace AtFirst

variable {s : Stream}

/-- **Reading a line leads to its end**, and to the depth that its first token makes. -/
theorem atLineEnd (h : AtFirst settings v t ts s) (quiet : s.Quiet) :
    AtLineEnd v (depthAfter v.rawDepth (t :: ts))
      (closeBlock s.openBlock (s.openBlock.statement settings).2) := by
  have hkind : s.kind = t.kind := by rw [kind, h.current]
  obtain ⟨hstop, hp, hscan⟩ := statement_ends settings (s := s.openBlock)
    (by rw [feed_openBlock]; exact h.drained) (by rw [kind_openBlock]; exact h.inLine)
  rw [feed_openBlock] at hstop hscan
  have hquiet := ((Quiet.upkeep settings).invariant.statement quiet.openBlock).1
  refine ⟨?_, by rwa [feed_closeBlock], ?_, ?_, hquiet.closeBlock _⟩
  · rw [current_closeBlock, hstop]
    exact congrArg Stream.current h.passed
  · rw [feed_closeBlock, hscan]
    exact congrArg (·.feed.scan) h.passed
  · rw [rawDepth_closeBlock, rawDepth_statement, isRaw, kind_openBlock, rawDepth_openBlock, hkind,
      h.rawDepth]
    simp only [depthAfter, startsWith, List.head?_cons, Option.any_some, decide_eq_true_eq]
    by_cases hs : t.kind = .macroStart
    · simp [hs]
    · by_cases he : t.kind = .macroEnd
      · cases hd : v.rawDepth with
        | zero => simp [he]
        | succ n => simp [he]
      · simp [hs, he]

/-- In raw mode the line is listed as it was scanned. -/
theorem statement_of_raw (h : AtFirst settings v t ts s) (hr : s.openBlock.isRaw = true) :
    (s.openBlock.statement settings).1 = t :: ts := by
  have hline : s.openBlock.lineTokens settings = ts := by
    rw [Stream.lineTokens, feed_openBlock]
    exact h.lineTokens
  rw [statement_of_passing settings (by rw [feed_openBlock]; exact h.drained)
    (by rw [kind_openBlock]; exact h.inLine) fun _ _ => Or.inl hr, hline, current_openBlock,
    h.current]

/-- What arises from the rest of the source holds what arises from the line. -/
theorem arises_statement_line (h : AtFirst settings v t ts s) :
    Arises (s.statement settings).1 (t :: ts) := by
  have hends := statement_ends settings h.drained h.inLine
  have harises := arises_statement settings s
  obtain ⟨rest, hahead⟩ := exists_ahead_eq settings h.drained
  have hline : ∀ x ∈ t :: ts, x.kind.isSeparator = false := by
    intro x hx
    rcases List.mem_cons.mp hx with rfl | hx
    · rw [← h.current]
      exact h.inLine
    · rw [← h.lineTokens] at hx
      exact not_isSeparator_of_mem_lineTokens settings hx
  rw [s.remaining_of_not_isSeparator settings h.inLine, hahead, h.lineTokens, h.current, remaining,
    kind, hends.1] at harises
  by_cases he : s.feed.scan.firstLine.stop.kind = .eof
  · simpa [he] using harises
  · simp only [he, if_false] at harises
    refine harises.of_append_separator s.feed.scan.isSeparator_stop s.feed.scan.isSeparator_stop ?_
      hline
    exact fun x hx => not_isSeparator_of_mem_statement settings hx

/-- **How a line is listed.** -/
theorem listedAs (h : AtFirst settings v t ts s) (line : Nat) :
    ListedAs (v.rawDepth, t :: ts)
      { line := line, raw := s.openBlock.isRaw, tokens := (s.openBlock.statement settings).1 } := by
  have hkind : s.kind = t.kind := by rw [kind, h.current]
  have hraw : s.openBlock.isRaw
      = decide (0 < v.rawDepth ∨ startsWith .macroStart (t :: ts) = true) := by
    rw [isRaw, rawDepth_openBlock, hkind, h.rawDepth]
    by_cases hs : t.kind = .macroStart
    · simp [startsWith, hs]
    · simp [startsWith, hs]
  unfold ListedAs
  split
  · rename_i hlisted
    have hr : s.openBlock.isRaw = true := by rw [hraw, decide_eq_true hlisted]
    exact ⟨hr, h.statement_of_raw hr⟩
  · rename_i hlisted
    have hr : s.openBlock.isRaw = false := by rw [hraw, decide_eq_false hlisted]
    have hopen : s.openBlock = s := by
      unfold openBlock
      rw [if_neg]
      intro hs
      rw [hkind] at hs
      exact hlisted (Or.inr (by simp [startsWith, hs]))
    refine ⟨hr, ?_⟩
    dsimp only
    rw [hopen]
    exact h.arises_statement_line

end AtFirst

/-! ## The lines of a source -/

/-- The statements behind a separator, if it is not the end of the input. -/
def statementsBehind (settings : Settings) (u : Stream) : List (List Token) :=
  if u.kind = .eof then []
  else statements (Feed.scanned settings.limits.maxStringLength u.feed.scan.items)

/-- A stream between two lines, before anything is reported that only the end of the
input can show. -/
structure BetweenLines (u : Stream) : Prop where
  separator : u.kind.isSeparator = true
  drained : u.feed.pushed = []
  scanned : ∀ t, .ok t ∈ u.feed.scan.items → t.kind ≠ .eof
  quiet : u.Quiet

/-- What a stream between two lines has still to read. -/
def linesBehind (u : Stream) : Nat := u.feed.scan.items.length + if u.kind = .eof then 0 else 1

/-- The first line is the first statement, and the others are behind it. -/
theorem statementsBehind_eq (hv : v.BetweenLines) (hk : v.kind = .sep) :
    v.statementsBehind settings
      = (if (v.lineTokens settings).isEmpty then [] else [v.lineTokens settings])
        ++ if v.feed.scan.firstLine.stop.kind = .eof then []
          else statements (Feed.scanned settings.limits.maxStringLength
            v.feed.scan.firstLine.behind.items) := by
  have hline : ∀ x ∈ v.lineTokens settings, x.kind.isSeparator = false :=
    fun x hx => not_isSeparator_of_mem_lineTokens settings hx
  rw [statementsBehind, if_neg (by simp [hk])]
  by_cases he : v.feed.scan.firstLine.stop.kind = .eof
  · rw [if_pos he, List.append_nil, ← statements_of_line hline]
    rcases v.feed.scan.firstLine_cut.2 with hcut | ⟨hcut, _⟩
    · -- an end of the input is not scanned
      refine absurd he (hv.scanned _ ?_)
      rw [hcut]
      exact List.mem_append_right _ List.mem_cons_self
    · exact congrArg (fun items => statements (Feed.scanned _ items)) hcut
  · rw [if_neg he, (v.scanned_eq settings).resolve_right fun h => he h.2]
    exact statements_of_line_append hline
      (((Kind.isSeparator_iff _).mp v.feed.scan.isSeparator_stop).resolve_right he)

namespace AtLineEnd

variable {depth : Nat} {u : Stream}

theorem kind_eq (h : AtLineEnd v depth u) : u.kind = v.feed.scan.firstLine.stop.kind := by
  rw [kind, h.current]

theorem statementsBehind_eq (h : AtLineEnd v depth u) (hv : v.BetweenLines) (hk : v.kind = .sep) :
    v.statementsBehind settings
      = (if (v.lineTokens settings).isEmpty then [] else [v.lineTokens settings])
        ++ u.statementsBehind settings := by
  rw [Stream.statementsBehind_eq hv hk, statementsBehind, h.kind_eq, h.scan]

/-- At the end of a line there is less to read. -/
theorem betweenLines (h : AtLineEnd v depth u) (hv : v.BetweenLines) (hk : v.kind = .sep) :
    u.BetweenLines ∧ u.linesBehind < v.linesBehind := by
  have hstop := v.feed.scan.isSeparator_stop
  have hmore : v.linesBehind = v.feed.scan.items.length + 1 := by simp [linesBehind, hk]
  rw [hmore, linesBehind, h.kind_eq, h.scan]
  rcases v.feed.scan.firstLine_cut.2 with hcut | ⟨_, he, hnil⟩
  · have hmem : ∀ i ∈ v.feed.scan.firstLine.behind.items, i ∈ v.feed.scan.items := by
      intro i hi
      rw [hcut]
      exact List.mem_append_right _ (List.mem_cons_of_mem _ hi)
    refine ⟨⟨by rw [h.kind_eq, hstop], h.drained, ?_, h.quiet⟩, ?_⟩
    · rw [h.scan]
      exact fun t ht => hv.scanned t (hmem _ ht)
    · have hlen := congrArg List.length hcut
      rw [List.length_append, List.length_cons] at hlen
      split
      · omega
      · omega
  · refine ⟨⟨by rw [h.kind_eq, hstop], h.drained, ?_, h.quiet⟩, ?_⟩
    · rw [h.scan, hnil]
      simp
    · rw [hnil, if_pos he]
      simp

end AtLineEnd

/-- The lines read are listed as the depths of the statements tell, and each block left
open is reported. -/
structure Listed (depth : Nat) (ss : List (List Token)) (lines : Array Line)
    (r : Array Line × Stream) : Prop where
  lines : ∃ ls, r.1.toList = lines.toList ++ ls ∧ List.Forall₂ ListedAs (withDepths depth ss) ls
  unclosed : r.2.log.countOf .unclosedBlock = ss.foldl depthAfter depth

theorem callFree_cons {depth : Nat} {s : List Token} {ss : List (List Token)}
    (h : CallFree depth (s :: ss)) :
    (depth = 0 → ∀ t ∈ s.head?, t.kind.function? = none) ∧ CallFree (depthAfter depth s) ss :=
  ⟨fun hd => h (depth, s) List.mem_cons_self hd, fun p hp => h p (List.mem_cons_of_mem _ hp)⟩

/-- One more line is listed in front. -/
theorem Listed.cons {depth : Nat} {s : List Token} {ss : List (List Token)} {lines : Array Line}
    {l : Line} {r : Array Line × Stream} (h : Listed (depthAfter depth s) ss (lines.push l) r)
    (hl : ListedAs (depth, s) l) : Listed depth (s :: ss) lines r := by
  obtain ⟨ls, hr, hls⟩ := h.lines
  refine ⟨⟨l :: ls, ?_, .cons hl hls⟩, h.unclosed⟩
  rw [hr, Array.toList_push, List.append_assoc, List.singleton_append]

/-- Nothing is read of an empty line. -/
theorem readLines_of_isSeparator (settings : Settings) (lines : Array Line) {s : Stream}
    (h : s.kind.isSeparator = true) :
    s.readLines settings lines = (s.consumeSeparator settings).readLines settings lines := by
  rcases s.kind.isSeparator_iff.mp h with hk | hk
  · have hopen : s.openBlock = s := by simp [openBlock, hk]
    have hclose : closeBlock s s = s := by simp [closeBlock, hk]
    have hstatement : s.statement settings = ([], s) := by rw [statement, dif_pos h]
    rw [readLines, dif_neg (by simp [hk])]
    simp only [hopen, hstatement, hclose]
    rfl
  · rw [consumeSeparator_of_eof settings hk]

/-- A statement that has begun is listed. -/
theorem addLine_statement (settings : Settings) (lines : Array Line) {s : Stream}
    (h : s.kind.isSeparator = false) :
    addLine lines s (s.statement settings).1
      = lines.push
          { line := s.current.span.line, raw := s.isRaw, tokens := (s.statement settings).1 } := by
  rw [addLine, if_neg]
  rw [statement, dif_neg (by simp [h])]
  simp

/-- At the end of the input there are no more lines. -/
theorem listed_of_eof (settings : Settings) {u : Stream} (hk : u.kind = .eof) (hq : u.Quiet)
    (lines : Array Line) : Listed u.rawDepth [] lines (u.readLines settings lines) := by
  rw [readLines, dif_pos hk]
  refine ⟨⟨[], by simp, .nil⟩, ?_⟩
  rw [countOf_reportOpenBlocks, hq.log, Nat.zero_add]
  rfl

/-- **From one line to the next**, lines are listed as the depths of the scanned
statements tell. -/
theorem readLines_blocks (settings : Settings) {u : Stream} (hu : u.BetweenLines)
    (free : CallFree u.rawDepth (u.statementsBehind settings)) (lines : Array Line) :
    Listed u.rawDepth (u.statementsBehind settings) lines
      ((u.consumeSeparator settings).readLines settings lines) := by
  rcases u.kind.isSeparator_iff.mp hu.separator with hk | hk
  · rw [consumeSeparator_of_sep settings hk]
    cases hts : u.lineTokens settings with
    | nil =>
      -- an empty line: its end is current at once
      have hpassed := advance_of_lineTokens_eq_nil settings hu.drained hts
      have hend : AtLineEnd u u.rawDepth (u.advance settings) := by
        rw [hpassed]
        refine ⟨rfl, rfl, rfl, rfl, ?_⟩
        rw [← hpassed]
        exact (Quiet.upkeep settings).advance hu.quiet
      obtain ⟨hw, hless⟩ := hend.betweenLines hu hk
      rw [hend.statementsBehind_eq hu hk, hts, ← hend.rawDepth] at free ⊢
      rw [readLines_of_isSeparator settings lines hw.separator]
      exact readLines_blocks settings hw free lines
    | cons t ts =>
      have hcall : u.rawDepth = 0 → t.kind.function? = none := by
        rw [statementsBehind_eq hu hk, hts] at free
        exact fun hd => (callFree_cons free).1 hd t rfl
      have hfirst := atFirst_advance hu.drained hts hcall
      have hend := hfirst.atLineEnd ((Quiet.upkeep settings).advance hu.quiet)
      obtain ⟨hw, hless⟩ := hend.betweenLines hu hk
      rw [hend.statementsBehind_eq hu hk, hts] at free ⊢
      rw [readLines, dif_neg (Kind.ne_of_isSeparator hfirst.inLine rfl)]
      dsimp only
      rw [addLine_statement settings lines (by rw [kind_openBlock]; exact hfirst.inLine)]
      refine Listed.cons ?_ (hfirst.listedAs (u.advance settings).openBlock.current.span.line)
      have hfree := (callFree_cons free).2
      rw [← hend.rawDepth] at hfree ⊢
      exact readLines_blocks settings hw hfree _
  · rw [statementsBehind, if_pos hk, consumeSeparator_of_eof settings hk]
    exact listed_of_eof settings hk hu.quiet lines
termination_by u.linesBehind

/-- Before its first token a source stands as if behind a line, in raw mode or not. -/
theorem betweenLines_ofScan (source : String) {u : Stream} (hf : u.feed = ⟨[], .ofSource source⟩)
    (hk : u.kind.isSeparator = true) (hlog : u.log = #[]) : u.BetweenLines := by
  have hscan : u.feed.scan.items = (Cursor.ofSource source).items := by
    rw [hf, Scan.ofSource_eq]
  refine ⟨hk, by rw [hf]; rfl, ?_, by rw [hlog]; rfl, ?_⟩
  · rw [hscan]
    exact fun t => Cursor.kind_ne_eof_of_mem_items _
  · rw [hscan]
    exact fun e => Cursor.message_ne_of_mem_items _

end Stream

/-- **Macro blocks are captured by bracket matching, as they were scanned.** Cut the
delivered tokens of a source into statements and count the open blocks. If no statement
outside of blocks starts with a token function, each statement is listed on one line:
raw and with just its tokens in a block and where it opens one, and expanded otherwise.
As many blocks are reported as unclosed as are open at the end. -/
theorem expandSource_blocks (settings : Settings) (source : String) :
    let delivered := Feed.scanned settings.limits.maxStringLength (Scan.ofSource source).items
    (∀ p ∈ withDepths 0 (statements delivered), p.1 = 0 →
      ∀ t ∈ p.2.head?, t.kind.function? = none) →
    List.Forall₂ ListedAs (withDepths 0 (statements delivered))
        (expandSource settings source).lines ∧
      (expandSource settings source).diagnostics.countOf .unclosedBlock
        = (statements delivered).foldl depthAfter 0 := by
  intro delivered free
  -- the stream before its first token stands as if behind a line
  have hstart : (Stream.ofSource source).BetweenLines := by
    refine ⟨rfl, rfl, ?_, rfl, ?_⟩
    · intro t ht
      rw [Stream.ofSource, Stream.ofScan, Scan.ofSource_eq] at ht
      exact Cursor.kind_ne_eof_of_mem_items _ ht
    · intro e he
      rw [Stream.ofSource, Stream.ofScan, Scan.ofSource_eq] at he
      exact Cursor.message_ne_of_mem_items _ he
  obtain ⟨⟨ls, hls, hlisted⟩, hcount⟩ := Stream.readLines_blocks settings hstart free #[]
  exact ⟨(congrArg (List.Forall₂ ListedAs _) hls).mpr hlisted, hcount⟩

/-- A block in a block is closed and the outer one is not; the call in them stays. -/
theorem expandSource_blocks_nested :
    let source := "x .string(y)\n.macro m\n.mac n\n.left(1, a b)\n.endmac\n"
    let delivered := Feed.scanned 255 (Scan.ofSource source).items
    (∀ p ∈ withDepths 0 (statements delivered), p.1 = 0 →
      ∀ t ∈ p.2.head?, t.kind.function? = none) ∧
    List.Forall₂ ListedAs (withDepths 0 (statements delivered)) (expandSource {} source).lines ∧
      (expandSource {} source).diagnostics.countOf .unclosedBlock = 1 := by
  intro source delivered
  have free : ∀ p ∈ withDepths 0 (statements delivered), p.1 = 0 →
      ∀ t ∈ p.2.head?, t.kind.function? = none := by
    decide +kernel
  obtain ⟨hlisted, hcount⟩ := expandSource_blocks {} source free
  exact ⟨free, hlisted, hcount.trans (by decide +kernel)⟩

end AsmExpand
