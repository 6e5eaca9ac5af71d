import AsmExpand.Proofs.Coverage
import AsmExpand.Proofs.Requests
import AsmExpand.Proofs.Statements
import Mathlib.Logic.Function.Iterate

/-!
# Everything ends

What can be done with a stream ends, and so does reading a source. That the functions here
are total says this of the recursion as it is written, with a budget for nested calls.
`operations_end` says it of the recursion without one: whatever is done with a stream, done
by the advance that expands calls by itself, has the same result, does not depend on what
would happen below the depth of the stream, and makes a bounded number of requests.

Readers are generic in the advance, and so are operations (`Advance.perform`). Statements and
the lines of a source are read here by any advance too (`Advance.readStatements`), which for
the advance of a stream's users is what the listing does.

To advance again and again comes to the end. There is no such simple measure for it as the
load, because an end of the input that was read can come back behind a window. But behind
each call there are fewer tokens in the feed, and otherwise there is one item less
(`Stream.left_advance_lt`).
-/

namespace AsmExpand

namespace Advance

variable (a : Advance)

/-! ## Operations by any advance -/

/-- Do one operation by an advance. -/
def perform (settings : Settings) (op : Operation) (s : Stream) : Answer × Stream :=
  match op with
  | .next => (.none, a s)
  | .constant =>
    let (v, s') := a.constant settings.symbols s
    (.value v, s')
  | .consume expected absent =>
    let (yes, s') := a.consume expected absent s
    (.matched yes, s')
  | .consumeSeparator => (.none, a.consumeSeparator s)
  | .skipToSeparator => (.none, a.skipToSeparator s)
  | op => s.perform settings op

/-- The operations of a stream's users. -/
theorem perform_full (settings : Settings) (op : Operation) (s : Stream) :
    (full settings).perform settings op s = s.perform settings op := by
  cases op <;> rfl

/-! ## Sources by any advance -/

/-- The tokens up to the separator that ends the statement, which is then current. -/
def statement (s : Stream) : List Token × Stream :=
  if _h : s.kind.isSeparator then ([], s)
  else
    let (ts, s') := statement (a s)
    (s.current :: ts, s')
termination_by s.load
decreasing_by exact a.load_lt_of_not_isSeparator (by simpa using _h)

/-- A statement ends where skipping to its end does. -/
theorem statement_snd (s : Stream) : (a.statement s).2 = a.skipToSeparator s := by
  fun_induction statement a s with
  | case1 s h => rw [skipToSeparator, dif_pos h]
  | case2 s h ts s' hs ih =>
    rw [skipToSeparator, dif_neg h, ← ih, hs]

/-- Past the end of a statement there is less to show than at its start. -/
theorem load_consumeSeparator_lt {s t : Stream} (h : s.kind ≠ .eof)
    (hk : t.kind = (a.statement s).2.kind) (hl : t.load = (a.statement s).2.load) :
    (a.consumeSeparator t).load < s.load := by
  rw [statement_snd] at hk hl
  rw [skipToSeparator] at hk hl
  cases hs : s.kind.isSeparator with
  | false =>
    rw [hs, dif_neg Bool.false_ne_true] at hl
    have hcons := a.load_consumeSeparator_le t
    have hskip := a.load_skipToSeparator_le (a s)
    have hstep := a.load_lt_of_not_isSeparator hs
    omega
  | true =>
    rw [hs, dif_pos rfl] at hk hl
    have hsep : t.kind = .sep := by
      rw [hk]
      exact ((Kind.isSeparator_iff _).mp hs).resolve_right h
    have hstep := a.load_lt (s := t) (by simp [hsep])
    rw [consumeSeparator, hsep]
    dsimp only
    omega

/-- Before a statement, with regard to blocks or without. -/
def opening : Bool → Stream → Stream
  | true, s => s.openBlock
  | false, s => s

/-- Behind a statement that started at `start`. -/
def closing : Bool → Stream → Stream → Stream
  | true, start, s => Stream.closeBlock start s
  | false, _, s => s

/-- At the end of the input. -/
def ending : Bool → Stream → Stream
  | true, s => Stream.reportOpenBlocks s.rawDepth s
  | false, s => s

/-- Read the remaining statements behind the lines read so far. -/
def readStatements (blocks : Bool) (lines : Array Line) (s : Stream) : Array Line × Stream :=
  if _h : s.kind = .eof then (lines, ending blocks s)
  else
    let r := a.statement (opening blocks s)
    readStatements blocks (Stream.addLine lines (opening blocks s) r.1)
      (a.consumeSeparator (closing blocks (opening blocks s) r.2))
termination_by s.load
decreasing_by
  cases blocks with
  | false => exact a.load_consumeSeparator_lt _h rfl rfl
  | true =>
    rw [← Stream.load_openBlock s]
    exact a.load_consumeSeparator_lt (by simpa using _h) (Stream.kind_closeBlock _ _)
      (Stream.load_closeBlock _ _)

/-- Read a source from before its first token. -/
def listing (blocks : Bool) (s : Stream) : Array Line × Stream := a.readStatements blocks #[] (a s)

theorem statement_full (settings : Settings) (s : Stream) :
    (full settings).statement s = s.statement settings := by
  fun_induction Stream.statement settings s with
  | case1 s h => rw [statement, dif_pos h]
  | case2 s h ts s' hs ih =>
    have hrest : (full settings).statement (full settings s) = (ts, s') := ih.trans hs
    rw [statement, dif_neg h, hrest]

theorem readStatements_true (settings : Settings) (lines : Array Line) (s : Stream) :
    (full settings).readStatements true lines s = s.readLines settings lines := by
  fun_induction Stream.readLines settings lines s with
  | case1 lines s h =>
    rw [readStatements, dif_pos h]
    rfl
  | case2 lines s h start r ih =>
    rw [readStatements, dif_neg h]
    simp only [statement_full]
    exact ih

theorem readStatements_false (settings : Settings) (lines : Array Line) (s : Stream) :
    (full settings).readStatements false lines s = s.readFlatLines settings lines := by
  fun_induction Stream.readFlatLines settings lines s with
  | case1 lines s h =>
    rw [readStatements, dif_pos h]
    rfl
  | case2 lines s h r ih =>
    rw [readStatements, dif_neg h]
    simp only [statement_full]
    exact ih

/-! ## What operations and sources cost -/

variable (settings : Settings) (bottom : Advance) {before : Diagnostics} {n most total : Nat}

theorem counted_consumeSeparator {s t : Stream} (h : Counted before n most total s t) :
    Counted before n most total ((full settings).consumeSeparator s)
      ((unrolled settings bottom n).consumeSeparator t) := by
  have hcosts := costs settings bottom before n most
  rw [consumeSeparator, consumeSeparator, h.kind]
  split
  · exact h
  · rename_i hk
    exact hcosts.step h (by simp [hk])
  · exact (hcosts.simulation total).skipToSeparator (h.reportHere _)

/-- **An operation does the same with requests marked**, and costs at most one request more
than the potential pays for. -/
theorem counted_perform {op : Operation} (hop : op.isPlain = true) {s t : Stream}
    (h : Counted before n most total s t) :
    let r := (unrolled settings bottom n).perform settings op t
    s.perform settings op = (r.1, r.2.unmarked before) ∧ r.2.requests ≤ total + 1 := by
  rw [← perform_full]
  have hcosts := costs settings bottom before n most
  have hpaid := h.paid
  have hrequests : t.requests ≤ total + 1 := by omega
  have hmore := h.mono (Nat.le_refl n) (Nat.le_succ total)
  -- to advance is paid for wherever the stream stands
  have hadvance : Counted before n most (total + 1) (s.advance settings)
      (unrolled settings bottom n t) := by
    have hsize := t.size_le_load
    have hmost := h.load
    exact hcosts s t total h.same h.small (by omega) (by omega)
  have done : ∀ {x : Answer} {s' t' : Stream}, Counted before n most (total + 1) s' t' →
      ((x, s') : Answer × Stream) = (x, t'.unmarked before) ∧ t'.requests ≤ total + 1 := by
    intro x s' t' hc
    have hpaid' := hc.paid
    exact ⟨by rw [hc.same], by omega⟩
  cases op with
  | next => exact done hadvance
  | constant =>
    obtain ⟨hv, hc⟩ := (hcosts.simulation (total + 1)).constant hmore settings.symbols
    change (Answer.value ((full settings).constant settings.symbols s).1, _) = _ ∧ _
    rw [← hv]
    exact done hc
  | consume expected absent =>
    change (Answer.matched ((full settings).consume expected absent s).1,
      ((full settings).consume expected absent s).2) = (_, _) ∧ _
    simp only [perform, consume, h.kind]
    split
    · exact done hadvance
    · exact done (hmore.reportHere absent)
  | consumeSeparator => exact done (counted_consumeSeparator settings bottom hmore)
  | skipToSeparator => exact done ((hcosts.simulation (total + 1)).skipToSeparator hmore)
  | report cause => exact done (hmore.reportHere cause)
  | push tokens | enterRaw | leaveRaw | symbol _ | limits =>
    refine ⟨?_, hrequests⟩
    rw [h.same]
    rfl
  | guarded ops => cases hop

theorem counted_statement {s t : Stream} (h : Counted before n most total s t) :
    ((unrolled settings bottom n).statement t).1 = ((full settings).statement s).1 ∧
      Counted before n most total ((full settings).statement s).2
        ((unrolled settings bottom n).statement t).2 := by
  fun_induction statement (full settings) s generalizing t with
  | case1 s hs =>
    rw [statement, dif_pos (by rwa [h.kind])]
    exact ⟨rfl, h⟩
  | case2 s hs ts s' hr ih =>
    have hk : s.kind.isSeparator = false := by simpa using hs
    have hstep := (costs settings bottom before n most).step h (Kind.ne_of_isSeparator hk rfl)
    obtain ⟨hts, hc⟩ := ih hstep
    rw [hr] at hts hc
    rw [statement, dif_neg (by rwa [h.kind]), h.current]
    exact ⟨congrArg (s.current :: ·) hts, hc⟩

theorem counted_opening (blocks : Bool) {s t : Stream} (h : Counted before n most total s t) :
    Counted before n most total (opening blocks s) (opening blocks t) := by
  cases blocks with
  | false => exact h
  | true =>
    rw [opening, opening, Stream.openBlock, Stream.openBlock, h.kind]
    split
    · rw [Stream.enterRaw, Stream.enterRaw, h.rawDepth]
      exact h.setRawDepth _
    · exact h

theorem counted_closing (blocks : Bool) {s₀ t₀ s t : Stream}
    (h₀ : Counted before n most total s₀ t₀) (h : Counted before n most total s t) :
    Counted before n most total (closing blocks s₀ s) (closing blocks t₀ t) := by
  cases blocks with
  | false => exact h
  | true =>
    rw [closing, closing, Stream.closeBlock, Stream.closeBlock, h₀.kind, Stream.isRaw,
      Stream.isRaw, h₀.rawDepth]
    split
    · rw [Stream.leaveRaw, Stream.leaveRaw, h.rawDepth]
      exact h.setRawDepth _
    · exact h

theorem counted_reportOpenBlocks (depth : Nat) {s t : Stream}
    (h : Counted before n most total s t) :
    Counted before n most total (Stream.reportOpenBlocks depth s)
      (Stream.reportOpenBlocks depth t) := by
  induction depth generalizing s t with
  | zero => exact h
  | succ depth ih => exact ih (h.reportHere _)

theorem counted_ending (blocks : Bool) {s t : Stream} (h : Counted before n most total s t) :
    Counted before n most total (ending blocks s) (ending blocks t) := by
  cases blocks with
  | false => exact h
  | true =>
    rw [ending, ending, h.rawDepth]
    exact counted_reportOpenBlocks _ h

theorem counted_readStatements (blocks : Bool) (lines : Array Line) {s t : Stream}
    (h : Counted before n most total s t) :
    ((unrolled settings bottom n).readStatements blocks lines t).1
        = ((full settings).readStatements blocks lines s).1 ∧
      Counted before n most total ((full settings).readStatements blocks lines s).2
        ((unrolled settings bottom n).readStatements blocks lines t).2 := by
  fun_induction readStatements (full settings) blocks lines s generalizing t with
  | case1 lines s hs =>
    rw [readStatements, dif_pos (by rwa [h.kind])]
    exact ⟨rfl, counted_ending blocks h⟩
  | case2 lines s hs r =>
    rename_i ih
    have hstart := counted_opening blocks h
    obtain ⟨hts, hc⟩ := counted_statement settings bottom hstart
    have hline : Stream.addLine lines (opening blocks t)
        ((unrolled settings bottom n).statement (opening blocks t)).1
        = Stream.addLine lines (opening blocks s) r.1 := by
      rw [hts, Stream.addLine, Stream.addLine, Stream.isRaw, hstart.current, hstart.rawDepth]
      rfl
    rw [readStatements, dif_neg (by rwa [h.kind])]
    dsimp only
    rw [hline]
    exact ih (counted_consumeSeparator settings bottom (counted_closing blocks hstart hc))

end Advance

/-! ## Coming to the end -/

theorem Token.live_le_one (t : Token) : t.live ≤ 1 := by
  unfold live
  split
  · exact Nat.le_refl 1
  · exact Nat.zero_le 1

namespace Feed

/-- A feed delivers the first token it holds, past the faults before it, or the end of the
input if there is none; then it holds nothing. -/
theorem draw_cases (limit : Nat) (endSpan : Span) (log : Diagnostics) (items : List Item) :
    let d := draw limit endSpan log items
    d.token.kind = .eof ∧ d.feed.pending = [] ∧ d.feed.scan.items = [] ∨
      ∃ (faults : List ScanError) (t : Token),
        items = faults.map .error ++ .ok t :: d.feed.upcoming ∧ d.token.kind = t.kind := by
  fun_induction draw limit endSpan log items with
  | case1 => exact Or.inl ⟨rfl, rfl, rfl⟩
  | case2 log t items => exact Or.inr ⟨[], t, rfl, kind_checked limit t⟩
  | case3 log e items ih =>
    rcases ih with h | ⟨faults, t, hitems, hk⟩
    · exact Or.inl h
    · exact Or.inr ⟨e :: faults, t, congrArg (.error e :: ·) hitems, hk⟩

theorem next_cases (limit : Nat) (log : Diagnostics) (f : Feed) :
    let d := f.next limit log
    d.token.kind = .eof ∧ d.feed.pending = [] ∧ d.feed.scan.items = [] ∨
      ∃ (faults : List ScanError) (t : Token),
        f.upcoming = faults.map .error ++ .ok t :: d.feed.upcoming ∧ d.token.kind = t.kind := by
  unfold next
  split
  · rename_i t pending h
    refine Or.inr ⟨[], t, ?_, rfl⟩
    rw [upcoming, flatten_of_popPending? h]
    rfl
  · rename_i h
    have hf : f.upcoming = f.scan.items := by
      simp [upcoming, flatten_of_popPending?_eq_none h]
    rw [hf]
    exact draw_cases _ _ _ _

/-- The number of items that a feed holds beside the tokens to be read: faults, and ends of
the input. -/
def idle (f : Feed) : Nat := f.upcoming.countP fun i => !isLiveItem i

theorem size_add_idle (f : Feed) : f.size + f.idle = f.upcoming.length := by
  rw [size, itemCount, idle, List.length_eq_countP_add_countP isLiveItem]
  simp

/-- A token is to be read, or it is idle. -/
theorem live_add_idle (t : Token) :
    t.live + (if (!isLiveItem (.ok t)) = true then 1 else 0) = 1 := by
  rw [isLiveItem, Token.live]
  cases t.isLive <;> rfl

/-- An end of the input that is delivered is held no more, if it was held at all. -/
theorem idle_next_le (limit : Nat) (log : Diagnostics) (f : Feed) :
    (f.next limit log).feed.idle + 1 ≤ max 1 f.idle + (f.next limit log).token.live := by
  rcases next_cases limit log f with ⟨_, hp, hi⟩ | ⟨faults, t, hup, hk⟩
  · have hidle : (f.next limit log).feed.idle = 0 := by simp [idle, upcoming, hp, hi]
    omega
  · have hlive : (f.next limit log).token.live = t.live := by
      rw [Token.live, Token.live, Token.isLive, Token.isLive, hk]
    have hone := live_add_idle t
    have hidle : f.idle = _ := congrArg (List.countP fun i => !isLiveItem i) hup
    rw [List.countP_append, List.countP_cons] at hidle
    change _ = _ + ((f.next limit log).feed.idle + _) at hidle
    omega

/-- What is pushed in front of a token of the feed is not idle inside a line. -/
theorem idle_push_append_singleton {ts : List Token} (h : ∀ t ∈ ts, t.kind ≠ .eof) (t : Token)
    (f : Feed) : (f.push (ts ++ [t])).idle + t.live = f.idle + 1 := by
  have hts : (ts.map Except.ok : List Item).countP (fun i => !isLiveItem i) = 0 := by
    rw [List.countP_eq_zero]
    intro i hi
    obtain ⟨x, hx, rfl⟩ := List.mem_map.mp hi
    simp [isLiveItem, Token.isLive, h x hx]
  have hone := live_add_idle t
  rw [idle, upcoming_push, List.map_append, List.append_assoc, List.countP_append, hts,
    List.map_cons, List.map_nil, List.cons_append, List.nil_append, List.countP_cons]
  change 0 + (f.idle + _) + _ = _
  omega

end Feed

namespace Stream

variable (settings : Settings)

/-- At the end of the input, with nothing to come. -/
structure Drained (s : Stream) : Prop where
  kind : s.kind = .eof
  pending : s.feed.pending = []
  items : s.feed.scan.items = []

theorem Drained.advance {s : Stream} (h : s.Drained) : (s.advance settings).Drained := by
  have hfetch : (s.fetch settings).Drained := by
    rw [fetch, Feed.next_of_drained (by simp [Feed.pushed, h.pending]), h.items]
    exact ⟨rfl, rfl, rfl⟩
  have hcall : (s.fetch settings).call? = none :=
    call?_of_function?_eq_none (by rw [hfetch.kind]; rfl)
  rwa [advance_of_call?_eq_none settings hcall]

/-- However a stream is read, it does not come to hold more idle items, the current token
counted with them, than one end of the input. -/
theorem idle_upkeep {most : Nat} (hmost : 1 ≤ most) :
    Upkeep settings (fun s => s.feed.idle ≤ most)
      (fun s => s.feed.idle + 1 ≤ most + s.current.live) where
  take := by
    intro s h _
    have hnext := Feed.idle_next_le settings.limits.maxStringLength s.log s.feed
    change (s.feed.next _ s.log).feed.idle + 1 ≤ most + (s.feed.next _ s.log).token.live
    omega
  call := by
    intro s fn h _
    have hnext := Feed.idle_next_le settings.limits.maxStringLength s.log s.feed
    have hlive := (s.feed.next settings.limits.maxStringLength s.log).token.live_le_one
    change (s.feed.next _ s.log).feed.idle ≤ most
    omega
  ahead := by
    intro s h _
    have hlive := s.current.live_le_one
    omega
  report := fun h _ _ _ => h
  literal := by
    intro s h _ value _
    have hlive := s.current.live_le_one
    change s.feed.idle + 1 ≤ most + 1
    omega
  window := by
    intro s h ts hts
    have hne : ∀ x ∈ ts, x.kind ≠ .eof := by
      intro x hx
      obtain ⟨u, _, rfl, hk⟩ := hts x hx
      exact Kind.ne_of_isSeparator hk rfl
    have hpush := Feed.idle_push_append_singleton hne s.current s.feed
    change (s.feed.push (ts ++ [s.current])).idle ≤ most
    omega

/-- A measure of what a stream holds that is lower behind every advance. A token to be read
weighs more than an idle item, of which a call may put one back. -/
def left (s : Stream) : Nat := 2 * s.feed.size + s.feed.idle

/-- **To advance leaves less**, or comes to the end. -/
theorem left_advance_lt (s : Stream) :
    (s.advance settings).left < s.left ∨ (s.advance settings).Drained := by
  have hpays := (Advance.full settings).pays s
  have hidle := (idle_upkeep settings (Nat.le_max_left 1 s.feed.idle)).advance
    (Nat.le_max_right 1 s.feed.idle)
  change (s.advance settings).load ≤ _ at hpays
  rw [load] at hpays
  have hlive := (s.advance settings).current.live_le_one
  have lower : (s.advance settings).feed.size < s.feed.size →
      (s.advance settings).left < s.left := by
    intro hlt
    rw [left, left]
    omega
  cases hc : (s.fetch settings).call? with
  | some fn =>
    -- the function token is gone
    have hlt := Advance.size_feed_lt_of_call? hc
    have hexpand := (Advance.full settings).load_expand_le settings fn (s.fetch settings)
    have heq : s.advance settings
        = (Advance.full settings).expand settings fn (s.fetch settings) := by
      have := Advance.advance_eq settings s
      rwa [hc] at this
    have hsize := (s.advance settings).size_le_load
    rw [← heq] at hexpand
    exact Or.inl (lower (by omega))
  | none =>
    have heq := advance_of_call?_eq_none settings hc
    rcases s.feed.next_cases settings.limits.maxStringLength s.log with
      ⟨hk, hp, hi⟩ | ⟨faults, t, hup, hk⟩
    · rw [heq]
      exact Or.inr ⟨hk, hp, hi⟩
    · -- the feed holds one item less
      have hlength : (s.advance settings).feed.upcoming.length < s.feed.upcoming.length := by
        rw [heq, hup]
        simp [fetch]
        omega
      rw [← Feed.size_add_idle, ← Feed.size_add_idle] at hlength
      refine Or.inl ?_
      rw [left, left]
      omega

/-- Advancing often enough comes to the end. -/
theorem drained_iterate (n : Nat) : ∀ s : Stream, s.left < n →
    ((advance settings)^[n] s).Drained := by
  induction n with
  | zero =>
    intro s h
    exact absurd h (Nat.not_lt_zero _)
  | succ n ih =>
    intro s h
    rw [Function.iterate_succ_apply]
    rcases left_advance_lt settings s with hlt | hd
    · exact ih _ (by omega)
    · clear ih h
      induction n generalizing s with
      | zero => exact hd
      | succ n ih =>
        rw [Function.iterate_succ_apply]
        exact ih _ (hd.advance settings)

/-! ## Operations and sources end -/

/-- A stream without what was reported on it before is the stream with requests marked. -/
theorem counted_start (s : Stream) {n : Nat} (h : s.feed.size < n) :
    Counted s.log n s.load (s.feed.calls * (s.load + 1) + s.load) s { s with log := #[] } where
  same := by simp [unmarked, Diagnostics.unmarked]
  small := h
  load := Nat.le_refl _
  paid := by
    change 0 + s.feed.calls * (s.load + 1) + s.load ≤ _
    omega

/-- The bytes of a source bound the tokens and the calls in it. -/
theorem size_ofSource_le (source : String) :
    (ofSource source).feed.size ≤ (Utf8.bytes source).length ∧
      (ofSource source).feed.calls ≤ (Utf8.bytes source).length := by
  have hlength : (ofSource source).feed.upcoming.length ≤ (Utf8.bytes source).length := by
    change (Scan.ofSource source).items.length ≤ _
    rw [Scan.ofSource_eq]
    exact ((Cursor.ofSource source).tiles_items (.ofSource source)).length_le
  exact ⟨Nat.le_trans List.countP_le_length hlength, Nat.le_trans List.countP_le_length hlength⟩

/-- A source is read with requests marked as it is without. -/
theorem listing_marked (settings : Settings) (bottom : Advance) (blocks : Bool) {s : Stream}
    {source : String} (hfeed : s.feed = (ofSource source).feed) (hlog : s.log = #[]) {n : Nat}
    (hn : (Utf8.bytes source).length < n) :
    let r := (Advance.unrolled settings bottom n).listing blocks s
    let full := (Advance.full settings).listing blocks s
    full.1 = r.1 ∧ full.2 = r.2.unmarked #[] ∧
      r.2.requests ≤ ((Utf8.bytes source).length + 1) * ((Utf8.bytes source).length + 1) := by
  obtain ⟨hsize, hcalls⟩ := size_ofSource_le source
  rw [← hfeed] at hsize hcalls
  have hsame : s = s.unmarked #[] := by
    cases s
    cases hlog
    simp [unmarked, Diagnostics.unmarked]
  have hnone : s.requests = 0 := by simp [requests, hlog, Diagnostics.requests]
  have hfirst := Advance.costs settings bottom #[] n (Utf8.bytes source).length s s
    ((Utf8.bytes source).length * ((Utf8.bytes source).length + 1) + (Utf8.bytes source).length)
    hsame (by omega) hsize (by
      have := Nat.mul_le_mul_right ((Utf8.bytes source).length + 1) hcalls
      omega)
  obtain ⟨hlines, hc⟩ := Advance.counted_readStatements settings bottom blocks #[] hfirst
  have hpaid := hc.paid
  refine ⟨hlines.symm, hc.same, ?_⟩
  change Stream.requests ((Advance.unrolled settings bottom n).readStatements blocks #[] _).2 ≤ _
  rw [Nat.succ_mul]
  omega

/-- **Everything ends.** Whatever is done with a stream is done by the recursion without a
budget, with the same result, whatever it would do deeper than the feed is large; and the
requests are bounded. Advancing again and again drains what was pushed and scanned, and the
end of the input stays current. So a source is read to its end, in blocks or raw. -/
theorem operations_end (settings : Settings) (bottom : Advance) :
    (∀ (op : Operation) (s : Stream) (n : Nat), op.isPlain = true → s.feed.size < n →
      let r := (Advance.unrolled settings bottom n).perform settings op { s with log := #[] }
      s.perform settings op = (r.1, r.2.unmarked s.log) ∧
        r.2.requests ≤ (s.feed.calls + 1) * (s.load + 1)) ∧
    (∀ (s : Stream) (n : Nat), 2 * s.feed.upcoming.length < n →
      ((advance settings)^[n] s).Drained) ∧
    ∀ (source : String) (n : Nat), (Utf8.bytes source).length < n →
      (let r := (Advance.unrolled settings bottom n).listing true (ofSource source)
       expandSource settings source = ⟨r.1.toList, (r.2.unmarked #[]).log⟩ ∧
         r.2.requests ≤ ((Utf8.bytes source).length + 1) * ((Utf8.bytes source).length + 1)) ∧
      let r := (Advance.unrolled { limits := settings.limits } bottom n).listing false
        (ofSource source).enterRaw
      expandSourceRaw settings.limits source = ⟨r.1.toList, (r.2.unmarked #[]).log⟩ ∧
        r.2.requests ≤ ((Utf8.bytes source).length + 1) * ((Utf8.bytes source).length + 1) := by
  refine ⟨?_, ?_, ?_⟩
  · intro op s n hop hn
    obtain ⟨hsame, hcost⟩ :=
      Advance.counted_perform settings bottom hop (counted_start s hn)
    refine ⟨hsame, Nat.le_trans hcost ?_⟩
    rw [Nat.succ_mul]
    omega
  · intro s n hn
    have hlength := s.feed.size_add_idle
    exact drained_iterate settings n s (by rw [left]; omega)
  · intro source n hn
    refine ⟨?_, ?_⟩
    · obtain ⟨hlines, hstream, hcost⟩ :=
        listing_marked settings bottom true (s := ofSource source) rfl rfl hn
      refine ⟨?_, hcost⟩
      rw [← hlines, ← hstream, Advance.listing, Advance.readStatements_true]
      rfl
    · obtain ⟨hlines, hstream, hcost⟩ := listing_marked { limits := settings.limits } bottom false
        (s := (ofSource source).enterRaw) rfl rfl hn
      refine ⟨?_, hcost⟩
      rw [← hlines, ← hstream, Advance.listing, Advance.readStatements_false]
      rfl

/-- Calls within calls that are never closed, and an open block, with limits that leave room for
nothing. -/
theorem operations_end_unclosed :
    let settings : Settings := { limits := { maxStringLength := 0, argumentLimit := -1 } }
    let bottom := Advance.raw settings
    let source := ".concat(.left(1, .mid(x\n.macro m"
    let s := ofSource source
    let r := (Advance.unrolled settings bottom 13).perform settings .next s
    let e := (Advance.unrolled settings bottom 33).listing true s
    s.feed.size = 12 ∧ s.feed.calls = 3 ∧ (Utf8.bytes source).length = 32 ∧
      s.perform settings .next = (r.1, r.2.unmarked #[]) ∧ r.2.requests ≤ (3 + 1) * (13 + 1) ∧
      ((advance settings)^[25] s).Drained ∧
      expandSource settings source = ⟨e.1.toList, (e.2.unmarked #[]).log⟩ ∧
      e.2.requests ≤ 33 * 33 := by
  intro settings bottom source s r e
  have hsize : s.feed.size = 12 := by decide +kernel
  have hcalls : s.feed.calls = 3 := by decide +kernel
  have hload : s.load = 13 := by decide +kernel
  have hupcoming : s.feed.upcoming.length = 12 := by decide +kernel
  have hbytes : (Utf8.bytes source).length = 32 := by decide +kernel
  obtain ⟨one, drained, sources⟩ := operations_end settings bottom
  obtain ⟨hnext, hcost⟩ := one .next s 13 rfl (by omega)
  obtain ⟨⟨hlines, hcosts⟩, _⟩ := sources source 33 (by omega)
  rw [hcalls, hload] at hcost
  rw [hbytes] at hcosts
  exact ⟨hsize, hcalls, hbytes, hnext, hcost, drained s 25 (by omega), hlines, hcosts⟩

end Stream

end AsmExpand
