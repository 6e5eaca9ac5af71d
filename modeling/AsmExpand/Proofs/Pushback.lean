import AsmExpand.Listing.Statement
import AsmExpand.Proofs.Delivery
import AsmExpand.Proofs.Session

/-!
# Pushed tokens are read as if typed

What a user sees of a stream is its current token, its raw depth and its log. How
the feed holds the tokens that are still to come does not show: in pushed lists, in
one list, or in the scan. Two feeds that deliver the same tokens and then hold the
same are `Alike`, and streams with such feeds go on in lockstep
(`FeedsAlike.lockstep`). Pushing the same list on both sides keeps the feeds alike, so
it does not matter that a call pushes its window while the lists below are half
used up. Every operation therefore answers alike (`Alike.performAll`).

Two pairs of streams are in this relation. Tokens may stand in pushed lists, or the
scan may begin with them, if the check lets them pass there (`Delivers.scanned`).
And a statement that was captured in raw mode without a report can be pushed back
behind the separator it ends in: the feed then delivers what it did before
(`delivers_capture`).
-/

namespace AsmExpand

namespace Feed

variable {limit : Nat} {f g : Feed}

/-- If a delivery reports nothing with one log, it reports nothing with any. -/
theorem next_of_log_eq {log : Diagnostics} (h : (f.next limit log).log = log)
    (log' : Diagnostics) :
    f.next limit log' = ⟨(f.next limit log).token, log', (f.next limit log).feed⟩ := by
  obtain ⟨ds, hds⟩ := exists_next_log limit f
  have hnone : ds = #[] := Array.append_right_eq_self.mp ((hds log).symm.trans h)
  obtain ⟨ht, hf⟩ := next_log limit f log' log
  calc f.next limit log'
      = ⟨(f.next limit log').token, (f.next limit log').log, (f.next limit log').feed⟩ := rfl
    _ = _ := by rw [ht, hf, hds log', hnone, Array.append_empty]

/-- Two feeds deliver the same tokens, without a report, and then hold the same. -/
def Alike (limit : Nat) (f g : Feed) : Prop :=
  ∃ ts h, Delivers limit f ts h ∧ Delivers limit g ts h

namespace Alike

theorem refl (limit : Nat) (f : Feed) : Alike limit f f :=
  ⟨[], f, .done rfl rfl, .done rfl rfl⟩

theorem push (h : Alike limit f g) (ts : List Token) : Alike limit (f.push ts) (g.push ts) := by
  obtain ⟨us, k, hf, hg⟩ := h
  exact ⟨ts ++ us, k, hf.push ts, hg.push ts⟩

/-- Feeds that hold the same, however it is cut into lists, deliver the same. -/
theorem next_of_same (hp : f.pushed = g.pushed) (hs : f.scan = g.scan) (log : Diagnostics) :
    (g.next limit log).token = (f.next limit log).token ∧
      (g.next limit log).log = (f.next limit log).log ∧
      Alike limit (f.next limit log).feed (g.next limit log).feed := by
  cases hf : f.pushed with
  | nil =>
    rw [next_of_drained hf, next_of_drained (hp.symm.trans hf), hs]
    exact ⟨rfl, rfl, refl limit _⟩
  | cons t ts =>
    obtain ⟨ht, hl, hts, hscan⟩ := next_of_pushed hf limit log
    obtain ⟨ht', hl', hts', hscan'⟩ := next_of_pushed (hp.symm.trans hf) limit log
    refine ⟨ht'.trans ht.symm, hl'.trans hl.symm, [], (f.next limit log).feed, .done rfl rfl, ?_⟩
    exact .done (hts'.trans hts.symm) (by rw [hscan', hscan, hs])

/-- **Feeds that are alike deliver the same** and are alike again. -/
theorem next (h : Alike limit f g) (log : Diagnostics) :
    (g.next limit log).token = (f.next limit log).token ∧
      (g.next limit log).log = (f.next limit log).log ∧
      Alike limit (f.next limit log).feed (g.next limit log).feed := by
  obtain ⟨ts, k, hf, hg⟩ := h
  cases hf with
  | done hp hs =>
    cases hg with
    | done hp' hs' => exact next_of_same (hp.trans hp'.symm) (hs.trans hs'.symm) log
  | next hn hd =>
    cases hg with
    | next hn' hd' =>
      rw [hn log, hn' log]
      exact ⟨rfl, rfl, _, _, hd, hd'⟩

end Alike

end Feed

/-! ## Streams with feeds that are alike -/

/-- The streams differ only in their current tokens and in how their feeds hold what
they deliver. -/
structure FeedsAlike (settings : Settings) (s t : Stream) : Prop where
  feed : s.feed.Alike settings.limits.maxStringLength t.feed
  rawDepth : t.rawDepth = s.rawDepth
  log : t.log = s.log

/-- The current token is the same as well. -/
structure Alike (settings : Settings) (s t : Stream) : Prop extends FeedsAlike settings s t where
  current : t.current = s.current

namespace FeedsAlike

variable {settings : Settings} {s t : Stream}

theorem isRaw (h : FeedsAlike settings s t) : t.isRaw = s.isRaw := by
  rw [Stream.isRaw, h.rawDepth]
  rfl

theorem push (h : FeedsAlike settings s t) (ts : List Token) :
    FeedsAlike settings (s.push ts) (t.push ts) :=
  { h with feed := h.feed.push ts }

theorem reportAt (h : FeedsAlike settings s t) (span : Span) (cause : Cause) :
    FeedsAlike settings (s.reportAt span cause) (t.reportAt span cause) :=
  { h with log := by rw [Stream.reportAt, h.log]; rfl }

theorem fetch (h : FeedsAlike settings s t) :
    Alike settings (s.fetch settings) (t.fetch settings) := by
  obtain ⟨ht, hl, hf⟩ := h.feed.next s.log
  unfold Stream.fetch
  rw [h.log]
  exact ⟨⟨hf, h.rawDepth, hl⟩, ht⟩

end FeedsAlike

theorem Alike.call? {settings : Settings} {s t : Stream} (h : Alike settings s t) :
    t.call? = s.call? := by
  rw [Stream.call?, h.isRaw, Stream.kind, h.current]
  rfl

/-- **Streams with feeds that are alike go on in lockstep.** -/
theorem FeedsAlike.lockstep (settings : Settings) :
    Lockstep id settings (FeedsAlike settings) (Alike settings) where
  take := fun h hc => ⟨h.fetch.call?.trans hc, h.fetch⟩
  call := fun h hc => ⟨h.fetch.call?.trans hc, h.fetch.toFeedsAlike⟩
  current := fun h => h.current
  ahead := fun h _ => h.toFeedsAlike
  report := fun h span cause _ => ⟨h.reportAt span cause, h.current⟩
  literal := by
    intro s t h _ value _
    exact ⟨{ h.toFeedsAlike with }, by rw [h.current]⟩
  window := by
    intro s t h ts _
    rw [show ts.map (Token.mapSpan id) = ts from List.map_id _, h.current]
    exact h.push _

/-! ## What can be seen -/

/-- A stream without its feed: all that a user can see of it. -/
def Stream.visible (s : Stream) : Stream := { s with feed := ⟨[], ⟨[], {}⟩⟩ }

mutual

/-- An answer with the feeds of its streams left out. -/
def Answer.visible : Answer → Answer
  | .steps steps => .steps (visibleSteps steps)
  | .none => .none
  | .matched yes => .matched yes
  | .value v => .value v
  | .symbol v => .symbol v
  | .limits limits => .limits limits

/-- Answers, each with the stream after it, with the feeds left out. -/
def visibleSteps : List (Answer × Stream) → List (Answer × Stream)
  | [] => []
  | (answer, s) :: steps => (answer.visible, s.visible) :: visibleSteps steps

end

/-- What can be seen of operations that were done, and of the stream behind them. -/
def visibleRun (run : List (Answer × Stream) × Stream) : List (Answer × Stream) × Stream :=
  (visibleSteps run.1, run.2.visible)

namespace Alike

variable {settings : Settings} {s t : Stream}

theorem visible (h : Alike settings s t) : t.visible = s.visible := by
  rw [Stream.visible, Stream.visible, h.current, h.rawDepth, h.log]

theorem advance (h : FeedsAlike settings s t) :
    Alike settings (s.advance settings) (t.advance settings) :=
  (FeedsAlike.lockstep settings).advance h

theorem setRawDepth (h : Alike settings s t) (n : Nat) :
    Alike settings { s with rawDepth := n } { t with rawDepth := n } :=
  { h with rawDepth := rfl }

theorem report (h : Alike settings s t) (cause : Cause) :
    Alike settings (s.report cause) (t.report cause) := by
  unfold Stream.report
  rw [h.current]
  exact ⟨h.reportAt _ cause, h.current⟩

theorem enterRaw (h : Alike settings s t) : Alike settings s.enterRaw t.enterRaw := by
  unfold Stream.enterRaw
  rw [h.rawDepth]
  exact h.setRawDepth _

theorem leaveRaw (h : Alike settings s t) : Alike settings s.leaveRaw t.leaveRaw := by
  unfold Stream.leaveRaw
  rw [h.rawDepth]
  exact h.setRawDepth _

theorem consume (h : Alike settings s t) (expected : Kind) (absent : Cause) :
    (t.consume settings expected absent).1 = (s.consume settings expected absent).1 ∧
      Alike settings (s.consume settings expected absent).2
        (t.consume settings expected absent).2 := by
  have sim := (FeedsAlike.lockstep settings).simulation
  unfold Stream.consume Advance.consume
  rw [sim.kind h]
  split
  · exact ⟨rfl, advance h.toFeedsAlike⟩
  · exact ⟨rfl, h.report absent⟩

theorem consumeSeparator (h : Alike settings s t) :
    Alike settings (s.consumeSeparator settings) (t.consumeSeparator settings) := by
  have sim := (FeedsAlike.lockstep settings).simulation
  unfold Stream.consumeSeparator Advance.consumeSeparator
  rw [sim.kind h]
  split
  · exact h
  · exact advance h.toFeedsAlike
  · exact sim.skipToSeparator (h.report _)

mutual

/-- One operation answers alike and leads to streams that are alike. -/
theorem perform : ∀ (op : Operation) {s t : Stream}, Alike settings s t →
    (t.perform settings op).1.visible = (s.perform settings op).1.visible ∧
      Alike settings (s.perform settings op).2 (t.perform settings op).2
  | .next, s, t, h => ⟨rfl, advance h.toFeedsAlike⟩
  | .constant, s, t, h => by
    obtain ⟨hv, ha⟩ := (FeedsAlike.lockstep settings).simulation.constant h settings.symbols
    exact ⟨congrArg (fun v => (Answer.value v).visible) hv, ha⟩
  | .consume expected absent, s, t, h => by
    obtain ⟨hv, ha⟩ := h.consume expected absent
    exact ⟨congrArg (fun yes => (Answer.matched yes).visible) hv, ha⟩
  | .consumeSeparator, s, t, h => ⟨rfl, h.consumeSeparator⟩
  | .skipToSeparator, s, t, h =>
    ⟨rfl, (FeedsAlike.lockstep settings).simulation.skipToSeparator h⟩
  | .report cause, s, t, h => ⟨rfl, h.report cause⟩
  | .push tokens, s, t, h => ⟨rfl, h.push tokens, h.current⟩
  | .enterRaw, s, t, h => ⟨rfl, h.enterRaw⟩
  | .leaveRaw, s, t, h => ⟨rfl, h.leaveRaw⟩
  | .symbol name, s, t, h => ⟨rfl, h⟩
  | .limits, s, t, h => ⟨rfl, h⟩
  | .guarded ops, s, t, h => by
    obtain ⟨hv, ha⟩ := performAll ops h.enterRaw
    refine ⟨?_, ha.leaveRaw⟩
    simp only [Stream.perform, Answer.visible, hv]

theorem performAll : ∀ (ops : List Operation) {s t : Stream}, Alike settings s t →
    visibleSteps (t.performAll settings ops).1 = visibleSteps (s.performAll settings ops).1 ∧
      Alike settings (s.performAll settings ops).2 (t.performAll settings ops).2
  | [], s, t, h => ⟨rfl, h⟩
  | op :: ops, s, t, h => by
    obtain ⟨hv, ha⟩ := perform op h
    obtain ⟨hvs, has⟩ := performAll ops ha
    refine ⟨?_, has⟩
    simp only [Stream.performAll, visibleSteps, hv, ha.visible, hvs]

end

/-- **Streams that are alike cannot be told apart** by operations. -/
theorem visibleRun_eq (h : Alike settings s t) (ops : List Operation) :
    visibleRun (t.performAll settings ops) = visibleRun (s.performAll settings ops) := by
  obtain ⟨hv, ha⟩ := performAll ops h
  rw [visibleRun, visibleRun, hv, ha.visible]

/-- If the next operation is to advance, the current tokens need not be the same. -/
theorem visibleRun_next_eq (h : FeedsAlike settings s t) (ops : List Operation) :
    visibleRun (t.performAll settings (.next :: ops))
      = visibleRun (s.performAll settings (.next :: ops)) := by
  have ha := advance h
  have hrun := ha.visibleRun_eq ops
  simp only [visibleRun, Prod.mk.injEq] at hrun
  simp only [Stream.performAll, Stream.perform, visibleRun, visibleSteps, ha.visible, hrun]

end Alike

/-! ## Statements captured in raw mode -/

namespace Stream

variable (settings : Settings)

/-- Capture the next statement: its tokens as the feed delivers them, the separator
they end at included, and the stream behind it, with raw mode left again. -/
def capture (s : Stream) : List Token × Stream :=
  let r := (s.enterRaw.advance settings).statement settings
  (r.1 ++ [r.2.current], r.2.leaveRaw)

/-- Reading a statement in raw mode adds to the log, and leaves the raw depth alone. -/
theorem exists_log_statement_of_raw {s : Stream} (hr : 0 < s.rawDepth) :
    (∃ ds, (s.statement settings).2.log = s.log ++ ds) ∧
      (s.statement settings).2.rawDepth = s.rawDepth := by
  fun_induction statement settings s with
  | case1 s h => exact ⟨⟨#[], by simp⟩, rfl⟩
  | case2 s h ts s' hs ih =>
    rw [hs] at ih
    have hf := advance_of_raw settings hr
    obtain ⟨⟨ds, hds⟩, hd⟩ := ih (by rw [hf]; exact hr)
    obtain ⟨ds', hds'⟩ := exists_log_fetch settings s
    refine ⟨⟨ds' ++ ds, ?_⟩, ?_⟩
    · rw [hds, hf, hds', Array.append_assoc]
    · rw [hd, hf]
      rfl

/-- A fetch that the log does not show delivers its token without a report. -/
theorem delivers_fetch {s : Stream} {ts : List Token} {g : Feed}
    (hl : (s.fetch settings).log = s.log)
    (h : (s.fetch settings).feed.Delivers settings.limits.maxStringLength ts g) :
    s.feed.Delivers settings.limits.maxStringLength ((s.fetch settings).current :: ts) g :=
  .next (Feed.next_of_log_eq hl) h

/-- A statement read in raw mode without a report was delivered without one. -/
theorem delivers_statement_of_raw {s : Stream} (hr : 0 < s.rawDepth)
    (hl : (s.statement settings).2.log = s.log) :
    ∃ ts, (s.statement settings).1 ++ [(s.statement settings).2.current] = s.current :: ts ∧
      s.feed.Delivers settings.limits.maxStringLength ts (s.statement settings).2.feed := by
  fun_induction statement settings s with
  | case1 s h => exact ⟨[], rfl, .done rfl rfl⟩
  | case2 s h ts s' hs ih =>
    have hf := advance_of_raw settings hr
    have hr' : 0 < (s.advance settings).rawDepth := by
      rw [hf]
      exact hr
    -- the log grows from here to the end, so not even here
    obtain ⟨⟨ds, hds⟩, _⟩ := exists_log_statement_of_raw settings hr'
    obtain ⟨ds', hds'⟩ := exists_log_fetch settings s
    rw [hs] at ih hds
    rw [hf] at hds
    have hnone : ds' ++ ds = #[] := by
      rw [hds, hds', Array.append_assoc] at hl
      exact Array.append_right_eq_self.mp hl
    obtain ⟨rfl, rfl⟩ := Array.append_eq_empty_iff.mp hnone
    have hlog : (s.fetch settings).log = s.log := by rw [hds', Array.append_empty]
    obtain ⟨us, hus, hd⟩ := ih hr' (by rw [hds, hf, Array.append_empty])
    refine ⟨(s.fetch settings).current :: us, ?_, delivers_fetch settings hlog ?_⟩
    · rw [List.cons_append, hus, hf]
    · rwa [hf] at hd

/-- **What was captured without a report was delivered without one**, and what is
behind it is left. -/
theorem delivers_capture {s : Stream} (hl : (s.capture settings).2.log = s.log) :
    s.feed.Delivers settings.limits.maxStringLength (s.capture settings).1
        (s.capture settings).2.feed ∧
      (s.capture settings).2.rawDepth = s.rawDepth := by
  have hf : s.enterRaw.advance settings = s.enterRaw.fetch settings :=
    advance_of_raw settings (Nat.succ_pos _)
  have hr : 0 < (s.enterRaw.advance settings).rawDepth := by
    rw [hf]
    exact Nat.succ_pos _
  obtain ⟨⟨ds, hds⟩, hd⟩ := exists_log_statement_of_raw settings hr
  obtain ⟨ds', hds'⟩ := exists_log_fetch settings s.enterRaw
  have hlog : ((s.enterRaw.advance settings).statement settings).2.log = s.log := hl
  have hnone : ds' ++ ds = #[] := by
    rw [hds, hf, hds', Array.append_assoc] at hlog
    exact Array.append_right_eq_self.mp hlog
  obtain ⟨rfl, rfl⟩ := Array.append_eq_empty_iff.mp hnone
  obtain ⟨ts, hts, hdel⟩ := delivers_statement_of_raw settings hr (by rw [hds, Array.append_empty])
  constructor
  · unfold capture
    dsimp only
    rw [hts, hf]
    exact delivers_fetch settings (s := s.enterRaw) (by rw [hds', Array.append_empty])
      (by rw [hf] at hdel; exact hdel)
  · change ((s.enterRaw.advance settings).statement settings).2.rawDepth - 1 = _
    rw [hd, hf]
    rfl

/-- **Pushed tokens are read as if typed.** Whatever is done after a push, nothing
tells the stream from one without pushed lists, whose scan begins with the tokens
pushed last, goes on with those pushed before and then with what was left of it, if
the check on scanned strings lets all of these pass. And whatever is done after a
statement has been captured in raw mode without a report and pushed back with its
separator, advancing first, nothing tells that it was ever captured. -/
theorem pushed_as_typed (settings : Settings) (s : Stream) :
    (∀ ts : List Token,
      (∀ t ∈ ts ++ s.feed.pushed, t.isTooLong settings.limits.maxStringLength = false) →
      let typed : Stream :=
        { s with
          feed := ⟨[], ⟨(ts ++ s.feed.pushed).map .ok ++ s.feed.scan.items, s.feed.scan.endSpan⟩⟩ }
      ∀ ops, visibleRun ((s.push ts).performAll settings ops)
        = visibleRun (typed.performAll settings ops)) ∧
    ((s.capture settings).2.log = s.log →
      let back := (s.capture settings).2.push (s.capture settings).1
      ∀ ops, visibleRun (back.performAll settings (.next :: ops))
        = visibleRun (s.performAll settings (.next :: ops))) := by
  constructor
  · intro ts fits typed ops
    refine Alike.visibleRun_eq ?_ ops
    -- both feeds deliver the tokens and then go on with the old scan
    refine ⟨⟨⟨ts ++ s.feed.pushed, ⟨[], s.feed.scan⟩, .scanned fits _ _, ?_⟩, rfl, rfl⟩, rfl⟩
    exact (Feed.Delivers.pushed _ ⟨[], s.feed.scan⟩ (ts ++ s.feed.pushed)).of_same
      (by simp [Feed.pushed, push, Feed.push]) rfl
  · intro hl back ops
    obtain ⟨hd, hdepth⟩ := delivers_capture settings hl
    refine Alike.visibleRun_next_eq (t := back)
      ⟨⟨(s.capture settings).1, (s.capture settings).2.feed, hd, ?_⟩, hdepth, hl⟩ ops
    exact Feed.Delivers.pushed _ _ _

/-- A call that begins in the pushed list goes on in the list below and ends in the
scan; and a call that was captured is expanded when it is read again. -/
theorem pushed_as_typed_across :
    let x : Token := { kind := .ident, literal := some (.text "x") }
    let call : List Token := [{ kind := .call .left }, { kind := .leftParen },
      { kind := .int, literal := some (.int 1) }, { kind := .comma }]
    let s : Stream :=
      { feed := ⟨[[x, x]], ⟨[.ok { kind := .rightParen }, .ok { kind := .sep }], {}⟩⟩ }
    let typed : Stream :=
      { feed := ⟨[], ⟨(call ++ [x, x]).map .ok ++
          [.ok { kind := .rightParen }, .ok { kind := .sep }], {}⟩⟩ }
    (∀ t ∈ call ++ s.feed.pushed, t.isTooLong 255 = false) ∧
      visibleRun ((s.push call).performAll {} [.next, .next])
        = visibleRun (typed.performAll {} [.next, .next]) ∧
      (typed.capture {}).2.log = typed.log ∧
      visibleRun (((typed.capture {}).2.push (typed.capture {}).1).performAll {} [.next, .next])
        = visibleRun (typed.performAll {} [.next, .next]) := by
  intro x call s typed
  have fits : ∀ t ∈ call ++ s.feed.pushed, t.isTooLong 255 = false := by decide
  have clean : (typed.capture {}).2.log = typed.log := by decide +kernel
  exact ⟨fits, (pushed_as_typed {} s).1 call fits [.next, .next], clean,
    (pushed_as_typed {} typed).2 clean [.next]⟩

end Stream

end AsmExpand
