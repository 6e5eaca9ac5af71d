import AsmExpand.Proofs.Delivery
import AsmExpand.Proofs.Lockstep
import AsmExpand.Proofs.Statements

/-!
# Where a line ends

A scan begins with a line: items, the separator that ends them, and the scan behind
it (`Scan.firstLine`). When a stream has nothing pushed, what it has to read up to
the next separator is the first line of its scan, and two things can be said of it.

* If none of the tokens is expanded, because raw mode is on or because none of them
  calls a function, the statement is the line as it was scanned
  (`Stream.statement_of_passing`).
* Whatever is expanded, the statement ends at the separator that ends the line, and
  nothing is pushed then: a window that has the separator behind it was drained before
  the separator came up again (`Stream.statement_ends`).
-/

namespace AsmExpand

/-- A line of a scan: its items, the separator that ends it, and the scan behind. -/
structure ScannedLine where
  items : List Item
  stop : Token
  behind : Scan

namespace Scan

/-- The first line of items, which the end of the input ends if nothing else does. -/
def lineOf (endSpan : Span) : List Item → ScannedLine
  | [] => ⟨[], .atEof endSpan, ⟨[], endSpan⟩⟩
  | .ok t :: items =>
    if t.kind.isSeparator then ⟨[], t, ⟨items, endSpan⟩⟩
    else { lineOf endSpan items with items := .ok t :: (lineOf endSpan items).items }
  | .error e :: items =>
    { lineOf endSpan items with items := .error e :: (lineOf endSpan items).items }

/-- The first line of a scan. -/
def firstLine (scan : Scan) : ScannedLine := lineOf scan.endSpan scan.items

theorem isSeparator_lineOf (endSpan : Span) (items : List Item) :
    (lineOf endSpan items).stop.kind.isSeparator = true := by
  induction items with
  | nil => rfl
  | cons i items ih =>
    cases i with
    | ok t =>
      by_cases h : t.kind.isSeparator = true
      · simp [lineOf, h]
      · simpa [lineOf, h] using ih
    | error e => exact ih

theorem isSeparator_stop (scan : Scan) : scan.firstLine.stop.kind.isSeparator = true :=
  isSeparator_lineOf scan.endSpan scan.items

theorem lineOf_cut (endSpan : Span) (items : List Item) :
    let l := lineOf endSpan items
    (∀ t, .ok t ∈ l.items → t.kind.isSeparator = false) ∧
      (items = l.items ++ .ok l.stop :: l.behind.items ∨
        items = l.items ∧ l.stop.kind = .eof ∧ l.behind.items = []) := by
  induction items with
  | nil => exact ⟨by simp [lineOf], Or.inr ⟨rfl, rfl, rfl⟩⟩
  | cons i items ih =>
    obtain ⟨hl, hcut⟩ := ih
    cases i with
    | ok t =>
      cases hk : t.kind.isSeparator with
      | true => exact ⟨by simp [lineOf, hk], Or.inl (by simp [lineOf, hk])⟩
      | false =>
        simp only [lineOf, hk, Bool.false_eq_true, if_false, List.cons_append,
          List.cons.injEq, true_and]
        refine ⟨fun x hx => ?_, hcut⟩
        rcases List.mem_cons.mp hx with he | hx
        · rw [Except.ok.inj he]
          exact hk
        · exact hl x hx
    | error e =>
      simp only [lineOf, List.cons_append, List.cons.injEq, true_and]
      refine ⟨fun x hx => hl x ?_, hcut⟩
      rcases List.mem_cons.mp hx with he | hx
      · cases he
      · exact hx

/-- No token of a line is a separator, and what was cut off is the rest: the separator
and the items behind it, or nothing, where the end of the input ends the line. -/
theorem firstLine_cut (scan : Scan) :
    (∀ t, .ok t ∈ scan.firstLine.items → t.kind.isSeparator = false) ∧
      (scan.items = scan.firstLine.items ++ .ok scan.firstLine.stop :: scan.firstLine.behind.items ∨
        scan.items = scan.firstLine.items ∧ scan.firstLine.stop.kind = .eof ∧
          scan.firstLine.behind.items = []) :=
  lineOf_cut scan.endSpan scan.items

end Scan

namespace Feed

theorem scanned_append (limit : Nat) (xs ys : List Item) :
    scanned limit (xs ++ ys) = scanned limit xs ++ scanned limit ys := by
  induction xs with
  | nil => rfl
  | cons i xs ih =>
    cases i with
    | ok t => simp [scanned, ih]
    | error e => simp [scanned, ih]

/-- A delivered token was scanned as one of its kind. -/
theorem exists_of_mem_scanned {limit : Nat} {t : Token} {items : List Item}
    (h : t ∈ scanned limit items) : ∃ u, .ok u ∈ items ∧ t = checked limit u := by
  induction items with
  | nil => cases h
  | cons i items ih =>
    cases i with
    | ok u =>
      rcases List.mem_cons.mp h with rfl | h
      · exact ⟨u, List.mem_cons_self, rfl⟩
      · obtain ⟨v, hv, rfl⟩ := ih h
        exact ⟨v, List.mem_cons_of_mem _ hv, rfl⟩
    | error e =>
      obtain ⟨v, hv, rfl⟩ := ih h
      exact ⟨v, List.mem_cons_of_mem _ hv, rfl⟩

/-- What the feed reports on the way through items. -/
def reports (limit : Nat) : List Item → Diagnostics
  | [] => #[]
  | .ok t :: items => checkedLog limit #[] t ++ reports limit items
  | .error e :: items => #[{ span := e.span, cause := .malformed e.message }] ++ reports limit items

theorem checkedLog_eq (limit : Nat) (log : Diagnostics) (t : Token) :
    checkedLog limit log t = log ++ checkedLog limit #[] t := by
  unfold checkedLog
  split
  · simp [Diagnostics.report]
  · simp

/-- A separator passes the check. -/
theorem checked_of_isSeparator (limit : Nat) {t : Token} (h : t.kind.isSeparator = true) :
    checked limit t = t ∧ checkedLog limit #[] t = #[] := by
  have ht : t.isTooLong limit = false := by
    refine Token.isTooLong_of_kind_ne (fun e => ?_) limit
    rw [e] at h
    cases h
  simp [checked, checkedLog, ht]

/-- **A draw takes the next token of the line, or its end** if there is none. -/
theorem draw_line (limit : Nat) (endSpan : Span) (items : List Item) : ∀ log,
    let l := Scan.lineOf endSpan items
    let d := draw limit endSpan log items
    (scanned limit l.items = [] ∧ d = ⟨l.stop, log ++ reports limit l.items, ⟨[], l.behind⟩⟩) ∨
    (d.token.kind.isSeparator = false ∧ d.feed.pending = [] ∧
      d.feed.scan.firstLine.stop = l.stop ∧ d.feed.scan.firstLine.behind = l.behind ∧
      scanned limit l.items = d.token :: scanned limit d.feed.scan.firstLine.items ∧
      log ++ reports limit l.items = d.log ++ reports limit d.feed.scan.firstLine.items) := by
  induction items with
  | nil =>
    intro log l d
    exact Or.inl ⟨rfl, by simp [d, l, draw, Scan.lineOf, reports]⟩
  | cons i items ih =>
    intro log
    cases i with
    | ok t =>
      intro l d
      cases hk : t.kind.isSeparator with
      | true =>
        have hl : l = ⟨[], t, ⟨items, endSpan⟩⟩ := by simp [l, Scan.lineOf, hk]
        obtain ⟨hc, hlog⟩ := checked_of_isSeparator limit hk
        refine Or.inl ⟨by rw [hl]; rfl, ?_⟩
        rw [hl]
        simp only [d, draw, hc, checkedLog_eq limit log t, hlog, reports]
      | false =>
        have hl : l = { Scan.lineOf endSpan items with
            items := .ok t :: (Scan.lineOf endSpan items).items } := by
          simp [l, Scan.lineOf, hk]
        refine Or.inr ⟨by simpa [d, draw] using hk, rfl, by rw [hl]; rfl, by rw [hl]; rfl,
          by rw [hl]; rfl, ?_⟩
        rw [hl]
        simp only [d, draw, reports, checkedLog_eq limit log t, Array.append_assoc]
        rfl
    | error e =>
      -- the fault is reported, and the draw goes on behind it
      rcases ih (log.report e.span (.malformed e.message)) with ⟨hs, hd⟩ | h
      · refine Or.inl ⟨hs, ?_⟩
        rw [draw, hd]
        simp [Scan.lineOf, reports, Diagnostics.report]
      · obtain ⟨hk, hp, hstop, hbehind, hs, hlog⟩ := h
        refine Or.inr ⟨hk, hp, hstop, hbehind, hs, ?_⟩
        rw [Diagnostics.report, ← Array.append_singleton, Array.append_assoc] at hlog
        exact hlog

end Feed

namespace Stream

variable (settings : Settings)

/-! ## Lines that pass as they are -/

/-- The tokens of the first line of the scan, as they are delivered. -/
def lineTokens (s : Stream) : List Token :=
  Feed.scanned settings.limits.maxStringLength s.feed.scan.firstLine.items

/-- The stream at the separator that ends the first line of the scan, all tokens before
it taken. -/
def passed (s : Stream) : Stream :=
  { s with
    feed := ⟨[], s.feed.scan.firstLine.behind⟩
    current := s.feed.scan.firstLine.stop
    log := s.log ++ Feed.reports settings.limits.maxStringLength s.feed.scan.firstLine.items }

theorem not_isSeparator_of_mem_lineTokens {s : Stream} {t : Token}
    (h : t ∈ s.lineTokens settings) : t.kind.isSeparator = false := by
  obtain ⟨u, hu, rfl⟩ := Feed.exists_of_mem_scanned h
  rw [Feed.kind_checked]
  exact s.feed.scan.firstLine_cut.1 u hu

/-- The delivered tokens of a scan are those of its first line and of what is behind. -/
theorem scanned_eq (s : Stream) :
    let limit := settings.limits.maxStringLength
    Feed.scanned limit s.feed.scan.items = s.lineTokens settings
        ++ s.feed.scan.firstLine.stop :: Feed.scanned limit s.feed.scan.firstLine.behind.items ∨
      Feed.scanned limit s.feed.scan.items = s.lineTokens settings ∧
        s.feed.scan.firstLine.stop.kind = .eof := by
  intro limit
  rcases s.feed.scan.firstLine_cut.2 with hcut | ⟨hcut, he, _⟩
  · refine Or.inl ?_
    refine (congrArg (Feed.scanned limit) hcut).trans ?_
    rw [Feed.scanned_append, Feed.scanned,
      (Feed.checked_of_isSeparator limit s.feed.scan.isSeparator_stop).1]
    rfl
  · exact Or.inr ⟨congrArg _ hcut, he⟩

theorem isSeparator_passed (s : Stream) : (s.passed settings).kind.isSeparator = true :=
  s.feed.scan.isSeparator_stop

/-- A fetch takes the next token of the line, or passes it if there is none. -/
theorem fetch_line {s : Stream} (hp : s.feed.pushed = []) :
    (s.lineTokens settings = [] ∧ s.fetch settings = s.passed settings) ∨
    ((s.fetch settings).kind.isSeparator = false ∧ (s.fetch settings).feed.pushed = [] ∧
      s.lineTokens settings = (s.fetch settings).current :: (s.fetch settings).lineTokens settings ∧
      (s.fetch settings).passed settings = s.passed settings) := by
  rw [fetch_of_drained hp]
  rcases Feed.draw_line settings.limits.maxStringLength s.feed.scan.endSpan s.feed.scan.items s.log
    with ⟨hs, hd⟩ | ⟨hk, hpend, hstop, hbehind, hs, hlog⟩
  · refine Or.inl ⟨hs, ?_⟩
    simp only [hd]
    rfl
  · refine Or.inr ⟨hk, by simp [Feed.pushed, hpend], hs, ?_⟩
    simp only [passed, hstop, hbehind, ← hlog]
    rfl

/-- A separator passes, and any token in raw mode; outside, one that calls no function. -/
theorem call?_of_passing {s : Stream}
    (h : s.isRaw = true ∨ s.kind.function? = none ∨ s.kind.isSeparator = true) :
    s.call? = none := by
  rcases h with hr | hn | hs
  · simp [call?, hr]
  · exact call?_of_function?_eq_none hn
  · exact call?_of_function?_eq_none (Kind.function?_of_isSeparator hs)

/-- An empty line is passed at once. -/
theorem advance_of_lineTokens_eq_nil {s : Stream} (hp : s.feed.pushed = [])
    (hnil : s.lineTokens settings = []) : s.advance settings = s.passed settings := by
  rcases fetch_line settings hp with ⟨_, hf⟩ | ⟨_, _, hs, _⟩
  · rw [← hf]
    refine advance_of_call?_eq_none settings ?_
    rw [hf]
    exact call?_of_passing (Or.inr (Or.inr (isSeparator_passed settings s)))
  · rw [hnil] at hs
    cases hs

/-- If every token of the line passes, the rest of the statement is the rest of the line. -/
theorem statement_of_passing {s : Stream} (hp : s.feed.pushed = [])
    (hk : s.kind.isSeparator = false)
    (pass : ∀ t ∈ s.lineTokens settings, s.isRaw = true ∨ t.kind.function? = none) :
    s.statement settings = (s.current :: s.lineTokens settings, s.passed settings) := by
  generalize hts : s.lineTokens settings = ts at pass
  induction ts generalizing s with
  | nil =>
    rw [statement, dif_neg (by simp [hk]), advance_of_lineTokens_eq_nil settings hp hts, statement,
      dif_pos (isSeparator_passed settings s)]
  | cons t ts ih =>
    rcases fetch_line settings hp with ⟨hnil, _⟩ | ⟨hk', hp', hs, hpassed⟩
    · rw [hts] at hnil
      cases hnil
    · obtain ⟨rfl, hrest⟩ := List.cons.inj (hts.symm.trans hs)
      have hcall := call?_of_passing (s := s.fetch settings)
        ((pass _ List.mem_cons_self).imp_right Or.inl)
      have := ih hp' hk' hrest.symm fun x hx => pass x (List.mem_cons_of_mem _ hx)
      rw [statement, dif_neg (by simp [hk]), advance_of_call?_eq_none settings hcall, this, hpassed]

/-- If every token of the line passes, the next statement is the line. -/
theorem statement_advance_of_passing {s : Stream} (hp : s.feed.pushed = [])
    (pass : ∀ t ∈ s.lineTokens settings, s.isRaw = true ∨ t.kind.function? = none) :
    (s.advance settings).statement settings = (s.lineTokens settings, s.passed settings) := by
  rcases fetch_line settings hp with ⟨hnil, _⟩ | ⟨hk, hp', hs, hpassed⟩
  · rw [advance_of_lineTokens_eq_nil settings hp hnil, statement,
      dif_pos (isSeparator_passed settings s), hnil]
  · rw [hs] at pass
    have hcall := call?_of_passing (s := s.fetch settings)
      ((pass _ List.mem_cons_self).imp_right Or.inl)
    rw [advance_of_call?_eq_none settings hcall,
      statement_of_passing settings hp' hk fun x hx => pass x (List.mem_cons_of_mem _ hx), hpassed,
      hs]

/-! ## Lines with calls -/

/-- The feed delivers tokens of one line and then the separator `stop`, with the scan
`behind` left: the separator was pushed, as the last token, or it ends the first line of
the scan. -/
def Leads (stop : Token) (behind : Scan) (s : Stream) : Prop :=
  (∃ front, s.feed.pushed = front ++ [stop] ∧ (∀ t ∈ front, t.kind.isSeparator = false) ∧
    s.feed.scan = behind) ∨
  (∀ t ∈ s.feed.pushed, t.kind.isSeparator = false) ∧ s.feed.scan.firstLine.stop = stop ∧
    s.feed.scan.firstLine.behind = behind

/-- The separator `stop` is current and nothing is pushed, or a token before it is. -/
inductive OnLine (stop : Token) (behind : Scan) (s : Stream) : Prop where
  | stopped : s.current = stop → s.feed.pushed = [] → s.feed.scan = behind → OnLine stop behind s
  | inside : s.kind.isSeparator = false → s.Leads stop behind → OnLine stop behind s

variable {settings} {stop : Token} {behind : Scan} {s : Stream}

theorem Leads.fetch (h : s.Leads stop behind) : (s.fetch settings).OnLine stop behind := by
  cases hp : s.feed.pushed with
  | nil =>
    rcases h with ⟨front, hpushed, _⟩ | ⟨_, hstop, hbehind⟩
    · rw [hp] at hpushed
      simp at hpushed
    rcases fetch_line settings hp with ⟨_, hf⟩ | ⟨hk, hp', _, hpassed⟩
    · rw [hf]
      exact .stopped hstop rfl hbehind
    · -- the line behind the token has the same end
      refine .inside hk (Or.inr ⟨by simp [hp'], ?_, ?_⟩)
      · exact (congrArg Stream.current hpassed).trans hstop
      · exact (congrArg (·.feed.scan) hpassed).trans hbehind
  | cons x xs =>
    obtain ⟨hx, _, hxs, hscan⟩ := fetch_of_pushed hp settings
    rcases h with ⟨front, hpushed, hfront, hbehind⟩ | ⟨hpushed, hstop, hbehind⟩
    · rw [hp] at hpushed
      cases front with
      | nil =>
        obtain ⟨rfl, rfl⟩ := List.cons.inj hpushed
        exact .stopped hx hxs (hscan.trans hbehind)
      | cons y ys =>
        obtain ⟨rfl, rfl⟩ := List.cons.inj hpushed
        refine .inside ?_ (Or.inl ⟨ys, hxs, fun t ht => hfront t (List.mem_cons_of_mem _ ht),
          hscan.trans hbehind⟩)
        rw [kind, hx]
        exact hfront x List.mem_cons_self
    · rw [hp] at hpushed
      refine .inside ?_ (Or.inr ⟨?_, by rw [hscan, hstop], by rw [hscan, hbehind]⟩)
      · rw [kind, hx]
        exact hpushed x List.mem_cons_self
      · rw [hxs]
        exact fun t ht => hpushed t (List.mem_cons_of_mem _ ht)

theorem OnLine.leads (hs : stop.kind.isSeparator = true) (h : s.OnLine stop behind)
    (hk : s.kind.isSeparator = false) : s.Leads stop behind := by
  cases h with
  | stopped hc => rw [kind, hc, hs] at hk; cases hk
  | inside _ hl => exact hl

/-- Tokens of the line in front of what a line leads to. -/
theorem Leads.push (h : s.Leads stop behind) {ts : List Token}
    (hts : ∀ t ∈ ts, t.kind.isSeparator = false) : (s.push ts).Leads stop behind := by
  have hpushed : (s.push ts).feed.pushed = ts ++ s.feed.pushed := Feed.pushed_push _ _
  rcases h with ⟨front, hp, hfront, hbehind⟩ | ⟨hp, hstop, hbehind⟩
  · refine Or.inl ⟨ts ++ front, by rw [hpushed, hp, List.append_assoc], ?_, hbehind⟩
    exact List.forall_mem_append.mpr ⟨hts, hfront⟩
  · refine Or.inr ⟨?_, hstop, hbehind⟩
    rw [hpushed]
    exact List.forall_mem_append.mpr ⟨hts, hp⟩

/-- **Whatever is expanded, the stream stays on its line**, and a separator is current
only at its end, with nothing pushed. -/
theorem onLine_upkeep (settings : Settings) (hs : stop.kind.isSeparator = true) (behind : Scan) :
    Upkeep settings (Leads stop behind) (OnLine stop behind) where
  take := fun h _ => h.fetch
  call := by
    intro s fn h hc
    refine h.fetch.leads hs ?_
    rw [kind_of_call? hc]
    rfl
  ahead := fun h hk => h.leads hs hk
  report := by
    intro s h span cause _
    cases h with
    | stopped hc hp hb => exact .stopped hc hp hb
    | inside hk hl => exact .inside hk hl
  literal := by
    intro s h hk value _
    have hl : s.Leads stop behind := h.leads hs (by rw [hk]; rfl)
    exact .inside rfl hl
  window := by
    intro s h ts hts
    have hts : ∀ t ∈ ts, t.kind.isSeparator = false := by
      intro t ht
      obtain ⟨u, _, rfl, hu⟩ := hts t ht
      exact hu
    cases h with
    | stopped hc hp hb =>
      -- the window ends in the separator that ends the line
      refine Or.inl ⟨ts, ?_, hts, hb⟩
      change (s.feed.push _).pushed = _
      rw [Feed.pushed_push, hp, hc, List.append_nil]
    | inside hk hl =>
      exact hl.push (List.forall_mem_append.mpr ⟨hts, fun t ht => by
        rw [List.mem_singleton.mp ht]
        exact hk⟩)

/-- **A statement ends where its line does**, with nothing pushed, whatever calls are
expanded on the line. -/
theorem statement_ends (settings : Settings) (hp : s.feed.pushed = [])
    (hk : s.kind.isSeparator = false) :
    (s.statement settings).2.current = s.feed.scan.firstLine.stop ∧
      (s.statement settings).2.feed.pushed = [] ∧
      (s.statement settings).2.feed.scan = s.feed.scan.firstLine.behind := by
  have hs := s.feed.scan.isSeparator_stop
  have hend := ((onLine_upkeep settings hs s.feed.scan.firstLine.behind).invariant.statement
    (.inside hk (Or.inr ⟨by simp [hp], rfl, rfl⟩))).1
  cases hend with
  | stopped hc hp' hb => exact ⟨hc, hp', hb⟩
  | inside hk' =>
    rw [isSeparator_statement] at hk'
    cases hk'

end Stream

end AsmExpand
