import AsmExpand.Proofs.LineTokens
import AsmExpand.Proofs.Rendering
import AsmExpand.Proofs.Session

/-!
# Lines listed again

The text of a line is itself a source, of one line. Reading it gives that line back, with
the same kinds and values and without a diagnostic.

That is so for every line that is not raw (`expandSource_relisted`): its calls are gone,
so every token parts from the next, nothing is left to expand, and it opens no block. It
is **not** so for every raw line. A token function may be followed by something else than
a parenthesis there, and a name or a number behind it is rendered without a blank and read
as a part of the keyword. This is the only exception (`expandSourceRaw_relisted_iff`).
-/

namespace AsmExpand

/-- An expansion is just a line, places apart: no other line and no diagnostic. -/
def ReadsAs (e : Expansion) (l : Line) : Prop :=
  e.diagnostics = #[] ∧ ∃ l', e.lines = [l'] ∧ l'.raw = l.raw ∧
    l'.tokens.map Token.reading = l.tokens.map Token.reading

/-! ## A source of one line -/

theorem Token.isTooLong_congr {limit : Nat} {t u : Token} (h : t.reading = u.reading) :
    t.isTooLong limit = u.isTooLong limit := by
  obtain ⟨hk, hl⟩ := Prod.mk.inj h
  rw [isTooLong, isTooLong, text, text, hk, hl]

/-- **A scan delivers tokens without a report if and only if it is made of them**, places
apart. -/
theorem Feed.scanned_reading_iff {limit : Nat} {ts : List Token}
    (fits : ∀ t ∈ ts, t.isTooLong limit = false) (items : List Item) :
    (scanned limit items).map Token.reading = ts.map Token.reading ∧ reports limit items = #[] ↔
      items.map Item.reading? = ts.map fun t => some t.reading := by
  induction items generalizing ts with
  | nil =>
    cases ts with
    | nil => simp [scanned, reports]
    | cons t ts => simp [scanned]
  | cons i items ih =>
    cases i with
    | error e =>
      cases ts with
      | nil => simp [reports]
      | cons t ts => simp [reports, Item.reading?]
    | ok u =>
      cases ts with
      | nil => simp [scanned]
      | cons t ts =>
        have ih := ih fun x hx => fits x (List.mem_cons_of_mem _ hx)
        cases hu : u.isTooLong limit with
        | true =>
          -- a constant that is too long is reported, and is none of the tokens
          have hne : u.reading ≠ t.reading := by
            intro e
            rw [Token.isTooLong_congr e, fits t List.mem_cons_self] at hu
            cases hu
          simp [reports, checkedLog, hu, Item.reading?, Diagnostics.report, hne]
        | false =>
          have hlog : reports limit (.ok u :: items) = reports limit items := by
            simp [reports, checkedLog, hu]
          have hscanned : scanned limit (.ok u :: items) = u :: scanned limit items := by
            simp [scanned, checked, hu]
          rw [hlog, hscanned, List.map_cons, List.map_cons, List.map_cons, List.map_cons,
            List.cons.injEq, List.cons.injEq, and_assoc, ih, Item.reading?, Option.some.injEq]

/-- Items without a separator are one line, which the end of the input ends. -/
theorem Scan.firstLine_of_line {scan : Scan}
    (h : ∀ t, .ok t ∈ scan.items → t.kind.isSeparator = false) :
    scan.firstLine.items = scan.items ∧ scan.firstLine.stop.kind = .eof := by
  rcases scan.firstLine_cut.2 with hcut | ⟨hcut, hstop, _⟩
  · have hmem : .ok scan.firstLine.stop ∈ scan.items := by
      rw [hcut]
      exact List.mem_append_right _ List.mem_cons_self
    have hsep := scan.isSeparator_stop
    rw [h _ hmem] at hsep
    cases hsep
  · exact ⟨hcut.symm, hstop⟩

namespace Stream

variable (settings : Settings) {s : Stream}

/-- If what is scanned is one line and passes as it is, it is one statement, and the end
of the input follows. -/
theorem statement_of_line (hp : s.feed.pushed = [])
    (line : ∀ t, .ok t ∈ s.feed.scan.items → t.kind.isSeparator = false)
    (pass : ∀ t ∈ Feed.scanned settings.limits.maxStringLength s.feed.scan.items,
      s.isRaw = true ∨ t.kind.function? = none) :
    ∃ u : Stream, u.kind = .eof ∧ u.rawDepth = s.rawDepth ∧
      u.log = s.log ++ Feed.reports settings.limits.maxStringLength s.feed.scan.items ∧
      (s.advance settings).statement settings
        = (Feed.scanned settings.limits.maxStringLength s.feed.scan.items, u) := by
  obtain ⟨hitems, hstop⟩ := Scan.firstLine_of_line line
  have htokens : s.lineTokens settings
      = Feed.scanned settings.limits.maxStringLength s.feed.scan.items := by
    rw [lineTokens, hitems]
  refine ⟨s.passed settings, hstop, rfl, by rw [passed, hitems], ?_⟩
  rw [← htokens] at pass ⊢
  exact statement_advance_of_passing settings hp pass

variable {settings}

/-- The last statement outside of blocks is the last line. -/
theorem readLines_of_last {ts : List Token} {u : Stream} (lines : Array Line)
    (hs : s.statement settings = (ts, u)) (hu : u.kind = .eof) (hd : u.rawDepth = 0)
    (hr : s.isRaw = false) (hk : s.kind ≠ .macroStart) :
    s.readLines settings lines = (addLine lines s ts, u) := by
  have heof : ∀ lines : Array Line, u.readLines settings lines = (lines, u) := by
    intro lines
    rw [readLines, dif_pos hu, hd]
    rfl
  by_cases he : s.kind = .eof
  · rw [statement, dif_pos (by rw [he]; rfl)] at hs
    cases hs
    exact heof lines
  · have hopen : s.openBlock = s := if_neg hk
    have hclose : closeBlock s u = u := if_neg (by simp [hr])
    rw [readLines, dif_neg he]
    simp only [hopen, hs, hclose, consumeSeparator_of_eof settings hu]
    exact heof _

/-- The last statement is the last line. -/
theorem readFlatLines_of_last {ts : List Token} {u : Stream} (lines : Array Line)
    (hs : s.statement settings = (ts, u)) (hu : u.kind = .eof) :
    s.readFlatLines settings lines = (addLine lines s ts, u) := by
  have heof : ∀ lines : Array Line, u.readFlatLines settings lines = (lines, u) := by
    intro lines
    rw [readFlatLines, dif_pos hu]
  by_cases he : s.kind = .eof
  · rw [statement, dif_pos (by rw [he]; rfl)] at hs
    cases hs
    exact heof lines
  · rw [readFlatLines, dif_neg he]
    simp only [hs, consumeSeparator_of_eof settings hu]
    exact heof _

end Stream

/-- A single statement reads as a line if it has its kinds and values, and nothing was
reported. -/
theorem readsAs_addLine_iff {s : Stream} {ts : List Token} {log : Diagnostics} {l : Line}
    (hne : l.tokens ≠ []) (hr : s.isRaw = l.raw) :
    ReadsAs ⟨(Stream.addLine #[] s ts).toList, log⟩ l ↔
      ts.map Token.reading = l.tokens.map Token.reading ∧ log = #[] := by
  unfold ReadsAs Stream.addLine
  cases ts with
  | nil =>
    have hempty : [] ≠ l.tokens.map Token.reading := fun e => hne (List.map_eq_nil_iff.mp e.symm)
    simp [hempty]
  | cons t ts => simp [hr, and_comm]

/-! ## The text of a line -/

namespace Line

variable {limit : Nat} {l : Line}

/-- The text of a line is one line. -/
theorem WellFormed.not_isSeparator (h : l.WellFormed limit) {t : Token}
    (ht : .ok t ∈ (Scan.ofSource l.text).items) : t.kind.isSeparator = false := by
  have hline : Byte.newline ∉ (Cursor.ofSource l.text).rest :=
    newline_notMem_rendered true h.readable
  rw [Scan.ofSource_eq] at ht
  exact Cursor.not_isSeparator_of_mem_items hline ht

/-- **The text of a line is scanned as the line**, if and only if each token parts from
the next. -/
theorem WellFormed.scanned_iff (h : l.WellFormed limit) :
    (Feed.scanned limit (Scan.ofSource l.text).items).map Token.reading
        = l.tokens.map Token.reading ∧ Feed.reports limit (Scan.ofSource l.text).items = #[] ↔
      l.tokens.IsChain Token.Parts := by
  have htext : (Cursor.ofSource l.text).rest = rendered true l.tokens := rfl
  rw [Feed.scanned_reading_iff h.fits, Scan.ofSource_eq]
  exact Cursor.reading_rendered_iff htext h.readable

/-- Without calls each token parts from the next. -/
theorem WellFormed.parts (h : l.WellFormed limit) (hr : l.raw = false) :
    l.tokens.IsChain Token.Parts := by
  have hplain := h.expanded hr
  refine List.Pairwise.isChain (List.pairwise_of_forall_mem_list fun t ht u _ => ?_)
  exact Or.inl (hplain t ht)

end Line

/-- Tokens of the kinds of an expanded line call no function and open no block. -/
theorem Line.WellFormed.of_reading {limit : Nat} {l : Line} (h : l.WellFormed limit)
    (hr : l.raw = false) {ts : List Token}
    (hts : ts.map Token.reading = l.tokens.map Token.reading) :
    (∀ t ∈ ts, t.kind.function? = none) ∧ ∀ t ∈ ts.head?, t.kind ≠ .macroStart := by
  have hkinds : ts.map Token.kind = l.tokens.map Token.kind := by
    have := congrArg (List.map Prod.fst) hts
    simpa [Function.comp_def, Token.reading] using this
  constructor
  · intro t ht
    obtain ⟨u, hu, hk⟩ := List.mem_map.mp (hkinds ▸ List.mem_map_of_mem ht)
    rw [← hk]
    exact h.expanded hr u hu
  · intro t ht
    have hhead := congrArg List.head? hkinds
    rw [List.head?_map, List.head?_map, Option.mem_def.mp ht] at hhead
    obtain ⟨u, hu, hk⟩ := Option.map_eq_some_iff.mp hhead.symm
    rw [← hk]
    exact h.opensNoBlock hr u hu

/-! ## Listed again -/

/-- **Expanded output is a fixed point of expansion.** The text of every line that is not
raw is expanded to just that line again. -/
theorem expandSource_relisted (settings : Settings) (source : String) :
    ∀ l ∈ (expandSource settings source).lines, l.raw = false →
      ReadsAs (expandSource settings l.text) l := by
  intro l hl hr
  have hwf := wellFormed_of_mem_expandSource hl
  obtain ⟨hreading, hlog⟩ := hwf.scanned_iff.mpr (hwf.parts hr)
  obtain ⟨hplain, hopens⟩ := hwf.of_reading hr hreading
  obtain ⟨u, hu, hd, hreports, hs⟩ := Stream.statement_of_line settings
    (s := Stream.ofSource l.text) rfl (fun _ => hwf.not_isSeparator)
    fun t ht => Or.inr (hplain t ht)
  have hd₁ := (Stream.ofSource l.text).rawDepth_advance settings
  generalize hfirstdef : (Stream.ofSource l.text).advance settings = first at hs hd₁
  have hraw : first.isRaw = false := by
    rw [Stream.isRaw, hd₁]
    rfl
  have hfirst : first.kind ≠ .macroStart := by
    intro hk
    have hhead := Stream.head?_statement settings (s := first) (by rw [hk]; rfl)
    rw [hs] at hhead
    exact hopens first.current hhead hk
  rw [expandSource, hfirstdef, Stream.readLines_of_last #[] hs hu hd hraw hfirst]
  exact (readsAs_addLine_iff hwf.nonempty (hraw.trans hr.symm)).mpr
    ⟨hreading, hreports.trans (Array.empty_append.trans hlog)⟩

/-- A line with a binary constant behind an operator that starts like one, a constant that
was made and one with escapes. -/
theorem expandSource_relisted_mixed :
    let source := "x % %101 .string($1F) .left(1, \"q\\\"\\n\", z)"
    let l : Line := ⟨1, false, [⟨.ident, some (.text "x"), ⟨1, 1, 2⟩⟩,
      ⟨.operator .modulo, none, ⟨1, 3, 4⟩⟩, ⟨.int, some (.int 5), ⟨1, 5, 9⟩⟩,
      ⟨.text, some (.text "31"), ⟨1, 21, 22⟩⟩, ⟨.text, some (.text "q\"\n"), ⟨1, 32, 39⟩⟩]⟩
    l ∈ (expandSource {} source).lines ∧ l.raw = false ∧ ReadsAs (expandSource {} l.text) l := by
  intro source l
  have hl : l ∈ (expandSource {} source).lines := by decide +kernel
  exact ⟨hl, rfl, expandSource_relisted {} source l hl rfl⟩

/-- A raw line is read back in raw mode if and only if each of its tokens parts from the
next. -/
theorem Line.WellFormed.relisted_iff {limits : Limits} {l : Line}
    (h : l.WellFormed limits.maxStringLength) (hraw : l.raw = true) :
    ReadsAs (expandSourceRaw limits l.text) l ↔ l.tokens.IsChain Token.Parts := by
  obtain ⟨u, hu, _, hreports, hs⟩ := Stream.statement_of_line { limits := limits }
    (s := (Stream.ofSource l.text).enterRaw) rfl (fun _ => h.not_isSeparator) fun _ _ => Or.inl rfl
  have hr : ((Stream.ofSource l.text).enterRaw.advance { limits := limits }).isRaw = l.raw := by
    rw [Stream.isRaw, Stream.rawDepth_advance, hraw]
    rfl
  have hlog := hreports.trans Array.empty_append
  rw [expandSourceRaw, Stream.readFlatLines_of_last #[] hs hu, readsAs_addLine_iff h.nonempty hr,
    ← h.scanned_iff, hlog]
  rfl

/-- So it is for the lines of a macro block, in which expansion is suspended. -/
theorem expandSource_relisted_block_iff (settings : Settings) (source : String) :
    ∀ l ∈ (expandSource settings source).lines, l.raw = true →
      (ReadsAs (expandSourceRaw settings.limits l.text) l ↔ l.tokens.IsChain Token.Parts) :=
  fun _ hl hraw => (wellFormed_of_mem_expandSource hl).relisted_iff hraw

/-- **A line of a source read in raw mode is read back from its text if and only if each of
its tokens parts from the next.** The exceptions are the lines that hold a token function
with a name or a number directly behind it. -/
theorem expandSourceRaw_relisted_iff (limits : Limits) (source : String) :
    ∀ l ∈ (expandSourceRaw limits source).lines,
      ReadsAs (expandSourceRaw limits l.text) l ↔ l.tokens.IsChain Token.Parts := by
  intro l hl
  obtain ⟨hraw, hwf⟩ := wellFormed_of_mem_expandSourceRaw hl
  exact hwf.relisted_iff hraw

/-- Token functions with other things behind them than a parenthesis. -/
theorem expandSourceRaw_relisted_unfinished :
    let source := ".left \"q\" .mid , 1"
    let l : Line := ⟨1, true, [⟨.call .left, none, ⟨1, 1, 6⟩⟩,
      ⟨.text, some (.text "q"), ⟨1, 7, 10⟩⟩, ⟨.call .mid, none, ⟨1, 11, 15⟩⟩,
      ⟨.comma, none, ⟨1, 16, 17⟩⟩, ⟨.int, some (.int 1), ⟨1, 18, 19⟩⟩]⟩
    l ∈ (expandSourceRaw {} source).lines ∧ ReadsAs (expandSourceRaw {} l.text) l := by
  intro source l
  have hl : l ∈ (expandSourceRaw {} source).lines := by decide +kernel
  exact ⟨hl, (expandSourceRaw_relisted_iff {} source l hl).mpr (by decide)⟩

/-- A token function with a name behind it is rendered as one word, and that is read as
one directive. -/
theorem expandSourceRaw_left_name :
    let l : Line := ⟨1, true, [⟨.call .left, none, ⟨1, 1, 6⟩⟩,
      ⟨.ident, some (.text "a"), ⟨1, 7, 8⟩⟩]⟩
    (expandSourceRaw {} ".left a").lines = [l] ∧ l.text = ".LEFTa" ∧
      (expandSourceRaw {} l.text).lines.map (fun l' => l'.tokens.map Token.reading)
        = [[(.directive, some (.text ".LEFTA"))]] ∧
      ¬ReadsAs (expandSourceRaw {} l.text) l := by
  intro l
  have hreading : (expandSourceRaw {} l.text).lines.map (fun l' => l'.tokens.map Token.reading)
      = [[(.directive, some (.text ".LEFTA"))]] := by
    decide +kernel
  refine ⟨by decide +kernel, by decide +kernel, hreading, ?_⟩
  intro h
  obtain ⟨_, l', hl', _, hr⟩ := h
  rw [hl', List.map_singleton, hr] at hreading
  exact absurd hreading (by decide)

end AsmExpand
