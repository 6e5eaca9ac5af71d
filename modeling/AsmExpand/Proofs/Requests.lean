import AsmExpand.Proofs.Delivery
import AsmExpand.Proofs.Session

/-!
# Counting requests

Reading costs requests, one for each token taken from the feed. To count them, an advance
leaves a mark in the log at each request (`Advance.requesting`). Nothing reads the log, so a
run with marks is the run without them, the marks left out (`Stream.unmarked`).

The count is of the recursion as it is meant, without a budget for nested calls: `unrolled`
expands calls by the same advance again, to a depth `n`, and does below that depth whatever
`bottom` does. A run that does not depend on `bottom` has ended above it.

What pays for requests is a potential. A token that is read leaves the load, which pays for
the request that shows the next one. A call puts its window back, so that its tokens are read
again; they are no more than there were, and no function token is among them. So a call that
is still to come is worth as many requests as the stream is large, and one more. A step keeps
requests and potential together below a total (`Advance.costs`), and so does everything
that reads (`Costs.simulation`).
-/

namespace AsmExpand

/-! ## Marks in the log -/

namespace Diagnostics

/-- The mark of a request. No diagnostic that a reader reports has a file. -/
def mark : Diagnostic := { span := {}, cause := .malformed "", file := some "" }

/-- The number of marks in a log. -/
def requests (log : Diagnostics) : Nat := log.countP fun d => d.file.isSome

/-- A log without its marks, behind another log. -/
def unmarked (before log : Diagnostics) : Diagnostics := before ++ log.filter fun d => d.file.isNone

@[simp] theorem requests_report (log : Diagnostics) (span : Span) (cause : Cause) :
    (log.report span cause).requests = log.requests := by
  simp [requests, report]

@[simp] theorem requests_mark (log : Diagnostics) :
    requests (log.push mark) = log.requests + 1 := by
  simp [requests, mark]

@[simp] theorem unmarked_report (before log : Diagnostics) (span : Span) (cause : Cause) :
    unmarked before (log.report span cause) = (unmarked before log).report span cause := by
  simp [unmarked, report]

@[simp] theorem unmarked_mark (before log : Diagnostics) :
    unmarked before (log.push mark) = unmarked before log := by
  simp [unmarked, mark]

end Diagnostics

namespace Feed

theorem requests_draw (limit : Nat) (endSpan : Span) (log : Diagnostics) (items : List Item) :
    (draw limit endSpan log items).log.requests = log.requests := by
  fun_induction draw limit endSpan log items with
  | case1 => rfl
  | case2 log t items =>
    simp only [checkedLog]
    split
    · exact Diagnostics.requests_report _ _ _
    · rfl
  | case3 log e items ih => rw [ih, Diagnostics.requests_report]

theorem draw_unmarked (limit : Nat) (endSpan : Span) (before log : Diagnostics)
    (items : List Item) :
    draw limit endSpan (.unmarked before log) items =
      let d := draw limit endSpan log items
      ⟨d.token, .unmarked before d.log, d.feed⟩ := by
  fun_induction draw limit endSpan log items with
  | case1 => rfl
  | case2 log t items =>
    simp only [draw, checkedLog]
    split
    · rw [Diagnostics.unmarked_report]
    · rfl
  | case3 log e items ih => rw [draw, ← Diagnostics.unmarked_report, ih]

theorem requests_next (limit : Nat) (log : Diagnostics) (f : Feed) :
    (f.next limit log).log.requests = log.requests := by
  unfold next
  split
  · rfl
  · exact requests_draw _ _ _ _

theorem next_unmarked (limit : Nat) (before log : Diagnostics) (f : Feed) :
    f.next limit (.unmarked before log) =
      let d := f.next limit log
      ⟨d.token, .unmarked before d.log, d.feed⟩ := by
  unfold next
  split
  · rfl
  · exact draw_unmarked _ _ _ _ _

/-- Whether an item is a function token. -/
def isCall : Item → Bool
  | .ok t => t.kind.function?.isSome
  | .error _ => false

/-- The number of function tokens that a feed holds. -/
def calls (f : Feed) : Nat := f.upcoming.countP isCall

/-- A function token that is delivered is held no more. -/
theorem calls_draw_add_le (limit : Nat) (endSpan : Span) (log : Diagnostics) (items : List Item) :
    (draw limit endSpan log items).feed.calls
      + (if (draw limit endSpan log items).token.kind.function?.isSome then 1 else 0)
      ≤ items.countP isCall := by
  fun_induction draw limit endSpan log items with
  | case1 => simp [calls, upcoming, Token.atEof, Kind.function?]
  | case2 log t items =>
    rw [kind_checked, List.countP_cons]
    exact Nat.le_refl _
  | case3 log e items ih => simpa [List.countP_cons, isCall] using ih

theorem calls_next_add_le (limit : Nat) (log : Diagnostics) (f : Feed) :
    (f.next limit log).feed.calls
      + (if (f.next limit log).token.kind.function?.isSome then 1 else 0) ≤ f.calls := by
  unfold next
  split
  · rename_i t pending h
    rw [calls, calls, upcoming, upcoming, flatten_of_popPending? h, List.map_cons,
      List.cons_append, List.countP_cons]
    exact Nat.le_refl _
  · rename_i h
    have hf : f.calls = f.scan.items.countP isCall := by
      simp [calls, upcoming, flatten_of_popPending?_eq_none h]
    rw [hf]
    exact calls_draw_add_le _ _ _ _

/-- Pushed tokens that call nothing add no call. -/
theorem calls_push {ts : List Token} (h : ∀ t ∈ ts, t.kind.function? = none) (f : Feed) :
    (f.push ts).calls = f.calls := by
  have hts : (ts.map Except.ok : List Item).countP isCall = 0 := by
    rw [List.countP_eq_zero]
    intro i hi
    obtain ⟨t, ht, rfl⟩ := List.mem_map.mp hi
    simp [isCall, h t ht]
  rw [calls, upcoming_push, List.countP_append, hts, Nat.zero_add]
  rfl

end Feed

/-! ## The recursion itself, with its requests marked -/

namespace Stream

/-- The marks in the log of a stream. -/
def requests (s : Stream) : Nat := s.log.requests

/-- A stream without the marks in its log, behind another log. -/
def unmarked (before : Diagnostics) (s : Stream) : Stream :=
  { s with log := .unmarked before s.log }

/-- Take the next token of the feed and mark that. -/
def request (settings : Settings) (s : Stream) : Stream :=
  { s.fetch settings with log := (s.fetch settings).log.push Diagnostics.mark }

variable (settings : Settings)

theorem fetch_unmarked (before : Diagnostics) (s : Stream) :
    (s.unmarked before).fetch settings = (s.request settings).unmarked before := by
  simp only [fetch, request, unmarked, Feed.next_unmarked, Diagnostics.unmarked_mark]

theorem requests_request (s : Stream) : (s.request settings).requests = s.requests + 1 := by
  rw [requests, request, Diagnostics.requests_mark]
  exact congrArg (· + 1) (Feed.requests_next _ _ _)

theorem load_request_le (s : Stream) : (s.request settings).load ≤ s.feed.size :=
  s.load_fetch_le settings

theorem calls_request_le (s : Stream) : (s.request settings).feed.calls ≤ s.feed.calls :=
  Nat.le_of_add_right_le (Feed.calls_next_add_le settings.limits.maxStringLength s.log s.feed)

theorem calls_request_lt {s : Stream} {fn : TokenFunction}
    (h : (s.request settings).call? = some fn) :
    (s.request settings).feed.calls < s.feed.calls := by
  have hle := Feed.calls_next_add_le settings.limits.maxStringLength s.log s.feed
  have hk : (s.feed.next settings.limits.maxStringLength s.log).token.kind = .call fn :=
    kind_of_call? h
  rw [hk] at hle
  exact hle

/-- A token that calls nothing outside raw mode calls nothing. -/
theorem function?_of_call? {s : Stream} (hc : s.call? = none) (hd : s.rawDepth = 0) :
    s.kind.function? = none := by
  simpa [call?, isRaw, hd] using hc

end Stream

namespace Advance

/-- Request a token and, if it calls a function, expand the call by another advance. -/
def requesting (settings : Settings) (inner : Advance) : Advance where
  step s :=
    let t := s.request settings
    t.call?.elim t fun fn => inner.expand settings fn t
  pays s := by
    have hload := s.load_request_le settings
    dsimp only
    cases (s.request settings).call? with
    | none => exact hload
    | some fn =>
      have hexpand := inner.load_expand_le settings fn (s.request settings)
      have hsize := (s.request settings).size_le_load
      exact Nat.le_trans hexpand (Nat.le_trans hsize hload)

/-- The advance that expands calls by itself, down to a depth; from there on by `bottom`. -/
def unrolled (settings : Settings) (bottom : Advance) : Nat → Advance
  | 0 => bottom
  | n + 1 => requesting settings (unrolled settings bottom n)

end Advance

/-! ## What reading costs -/

/-- The stream `t` is `s` with requests marked: it holds fewer than `n` tokens, has a load of
at most `most`, and `total` pays for its requests so far and for what it has still to show. -/
structure Counted (before : Diagnostics) (n most total : Nat) (s t : Stream) : Prop where
  same : s = t.unmarked before
  small : t.feed.size < n
  load : t.load ≤ most
  paid : t.requests + t.feed.calls * (most + 1) + t.load ≤ total

namespace Counted

variable {before : Diagnostics} {n most total : Nat} {s t : Stream}

theorem mono (h : Counted before n most total s t) {n' total' : Nat} (hn : n ≤ n')
    (ht : total ≤ total') : Counted before n' most total' s t :=
  ⟨h.same, Nat.lt_of_lt_of_le h.small hn, h.load, Nat.le_trans h.paid ht⟩

theorem current (h : Counted before n most total s t) : t.current = s.current := by
  rw [h.same]
  rfl

theorem report (h : Counted before n most total s t) (span : Span) (cause : Cause) :
    Counted before n most total (s.reportAt span cause) (t.reportAt span cause) where
  same := by
    rw [h.same]
    simp only [Stream.unmarked, Stream.reportAt, Diagnostics.unmarked_report]
  small := h.small
  load := h.load
  paid := by
    have := h.paid
    rwa [Stream.requests, Stream.reportAt, Diagnostics.requests_report]

theorem reportHere (h : Counted before n most total s t) (cause : Cause) :
    Counted before n most total (s.report cause) (t.report cause) := by
  rw [Stream.report, Stream.report, h.current]
  exact h.report _ _

theorem setRawDepth (h : Counted before n most total s t) (depth : Nat) :
    Counted before n most total { s with rawDepth := depth } { t with rawDepth := depth } where
  same := by
    rw [h.same]
    rfl
  small := h.small
  load := h.load
  paid := h.paid

theorem rawDepth (h : Counted before n most total s t) : t.rawDepth = s.rawDepth := by
  rw [h.same]
  rfl

theorem kind (h : Counted before n most total s t) : t.kind = s.kind :=
  congrArg Token.kind h.current

theorem load_eq (h : Counted before n most total s t) (hk : s.kind ≠ .eof) :
    t.load = 1 + t.feed.size := by
  have hne : t.current.kind ≠ .eof := by rwa [h.current]
  rw [Stream.load, Token.live_of_kind_ne hne]

/-- A constant counts for as much as the token it replaces. -/
theorem relabel (h : Counted before n most total s t) (hk : s.kind ≠ .eof) (value : String) :
    Counted before n most total { s with current := .ofText value s.current.span }
      { t with current := .ofText value t.current.span } := by
  have hsame : { s with current := Token.ofText value s.current.span }
      = Stream.unmarked before { t with current := Token.ofText value t.current.span } := by
    rw [h.same]
    rfl
  have hpaid := h.paid
  have hmost := h.load
  rw [h.load_eq hk] at hpaid hmost
  exact ⟨hsame, h.small, hmost, hpaid⟩

end Counted

namespace Advance

variable (settings : Settings) (bottom : Advance) {before : Diagnostics} {n most : Nat}

/-- What it costs to advance, with calls expanded down to a depth of `n`: one request more
than the potential pays for. -/
def Costs (before : Diagnostics) (n most : Nat) : Prop :=
  ∀ (s t : Stream) (total : Nat), s = t.unmarked before → t.feed.size < n →
    t.feed.size ≤ most → t.requests + t.feed.calls * (most + 1) + t.feed.size ≤ total →
    Counted before n most (total + 1) (s.advance settings) (unrolled settings bottom n t)

variable {settings bottom}

/-- Before the end of the input, the token left behind pays for the request. -/
theorem Costs.step (h : Costs settings bottom before n most) {s t : Stream} {total : Nat}
    (hc : Counted before n most total s t) (hk : s.kind ≠ .eof) :
    Counted before n most total (s.advance settings) (unrolled settings bottom n t) := by
  have hload := hc.load_eq hk
  have hpaid := hc.paid
  have hmost := hc.load
  have hstep := h s t (total - 1) hc.same hc.small (by omega) (by omega)
  rwa [Nat.sub_add_cancel (by omega)] at hstep

/-- Whatever reads a stream is paid for by what it reads. -/
theorem Costs.simulation (h : Costs settings bottom before n most) (total : Nat) :
    Simulation id (full settings) (unrolled settings bottom n) (Counted before n most total) where
  current := fun hc => hc.current
  step := fun hc hk => h.step hc (Kind.ne_of_isSeparator hk rfl)
  report := fun hc span cause _ => hc.report span cause

/-- The same outside raw mode, where no function token becomes current. -/
theorem Costs.simulation_inside (h : Costs settings bottom before n most) (total : Nat) :
    Simulation id (full settings) (unrolled settings bottom n)
      (fun s t => Counted before n most total s t ∧ s.call? = none ∧ s.rawDepth = 0) where
  current := fun hc => hc.1.current
  step := fun hc hk => ⟨h.step hc.1 (Kind.ne_of_isSeparator hk rfl),
    Stream.call?_advance settings _, (Stream.rawDepth_advance settings _).trans hc.2.2⟩
  report := fun hc span cause _ => ⟨hc.1.report span cause, hc.2⟩

/-- To advance with a window and the current token in front of the feed costs as many
requests more as there are tokens now. -/
theorem Costs.window (h : Costs settings bottom before n most) {s t : Stream} {total : Nat}
    (hc : Counted before n most total s t) {ts : List Token}
    (plain : ∀ x ∈ ts ++ [t.current], x.kind.function? = none)
    (hn : liveCount ts + t.load < n) (hmost : liveCount ts + t.load ≤ most) :
    Counted before n most (total + most + 1)
      ((s.push (ts ++ [s.current])).advance settings)
      (unrolled settings bottom n (t.push (ts ++ [t.current]))) := by
  have hsame : s.push (ts ++ [s.current]) = (t.push (ts ++ [t.current])).unmarked before := by
    rw [hc.same]
    rfl
  have hsize : (t.push (ts ++ [t.current])).feed.size = liveCount ts + t.load := by
    rw [Stream.size_feed_push, liveCount_append, liveCount_cons, liveCount_nil, Stream.load]
    omega
  have hcalls : (t.push (ts ++ [t.current])).feed.calls = t.feed.calls := Feed.calls_push plain _
  have hpaid := hc.paid
  refine h _ _ _ hsame (by omega) (by omega) ?_
  rw [hcalls, hsize]
  change t.requests + _ + _ ≤ _
  omega

/-- **A call is paid for by its function token**: that is worth the requests for all the
tokens of its window and for the one behind it. -/
theorem Costs.expand (h : Costs settings bottom before n most) {u : Stream} {fn : TokenFunction}
    {total : Nat} (hc : u.call? = some fn) (hn : u.feed.size < n) (hmost : u.load ≤ most)
    (hpaid : u.requests + u.feed.calls * (most + 1) + u.load ≤ total) :
    Counted before n most (total + most + 1)
      ((full settings).expand settings fn (u.unmarked before))
      ((unrolled settings bottom n).expand settings fn u) := by
  have hraw : u.rawDepth = 0 := by
    cases hr : u.isRaw with
    | false => simpa [Stream.isRaw] using hr
    | true =>
      rw [Stream.call?, hr] at hc
      cases hc
  have hstart : Counted before n most total (u.unmarked before) u := ⟨rfl, hn, hmost, hpaid⟩
  have hne : (u.unmarked before).kind ≠ .eof := by
    rw [show (u.unmarked before).kind = .call fn from Stream.kind_of_call? hc]
    simp
  have hsize := u.size_le_load
  refine (h.simulation_inside total).expand (Q := Counted before n most (total + most + 1))
    settings fn ⟨h.step hstart hne, Stream.call?_advance settings _,
      (Stream.rawDepth_advance settings _).trans hraw⟩ ?_ ?_ ?_
  · intro s t hc hk value _
    exact (hc.1.relabel (by simp [hk]) value).mono (Nat.le_refl n) (by omega)
  · intro s t hc ts hts hmem
    obtain ⟨hc, hcall, hdepth⟩ := hc
    rw [show ts.map (Token.mapSpan id) = ts from List.map_id _]
    have plain : ∀ x ∈ ts ++ [t.current], x.kind.function? = none := by
      intro x hx
      rcases List.mem_append.mp hx with hx | hx
      · obtain ⟨v, ⟨_, _, hv, hd⟩, rfl, _⟩ := hmem x hx
        exact Stream.function?_of_call? hv hd
      · rw [List.mem_singleton.mp hx, hc.current]
        exact Stream.function?_of_call? hcall hdepth
    -- what was read since the function token came out of the feed
    have hts : liveCount ts + t.load ≤ u.feed.size := by
      rw [hc.same] at hts
      exact hts
    exact h.window hc plain (by omega) (by omega)
  · intro s t hc
    exact hc.1.mono (Nat.le_refl _) (by omega)

/-- **To advance costs one request more than the potential pays for.** -/
theorem costs (settings : Settings) (bottom : Advance) (before : Diagnostics) (n most : Nat) :
    Costs settings bottom before n most := by
  induction n with
  | zero =>
    intro s t total _ hn
    exact absurd hn (Nat.not_lt_zero _)
  | succ n ih =>
    intro s t total hst hn hmost hpaid
    change Counted _ _ _ _ (full settings s) (requesting settings (unrolled settings bottom n) t)
    have hfetch : s.fetch settings = (t.request settings).unmarked before := by
      rw [hst, Stream.fetch_unmarked]
    have hload := t.load_request_le settings
    have hrequests := t.requests_request settings
    have hsize := (t.request settings).size_le_load
    rw [advance_eq, hfetch, requesting]
    dsimp only
    rw [show ((t.request settings).unmarked before).call? = (t.request settings).call? from rfl]
    cases hc : (t.request settings).call? with
    | none =>
      have hcalls := Nat.mul_le_mul_right (most + 1) (t.calls_request_le settings)
      dsimp only [Option.elim]
      exact ⟨rfl, by omega, by omega, by omega⟩
    | some fn =>
      have hcalls := Nat.mul_le_mul_right (most + 1) (t.calls_request_lt settings hc)
      rw [Nat.succ_mul] at hcalls
      have hlt : (t.request settings).feed.size < t.feed.size := size_feed_lt_of_call? hc
      have hexpand : Counted before n most (total - most + most + 1) _ _ :=
        ih.expand hc (by omega) (by omega) (by omega)
      exact hexpand.mono (Nat.le_succ n) (by omega)

end Advance

end AsmExpand
