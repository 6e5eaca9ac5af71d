import AsmExpand.Proofs.Delivery
import Mathlib.Data.PFun

/-!
# Feeds on any scanner

A `Feed` reads a scan: finitely many items, and then the end of the input for ever. All
that it needs is something that answers whenever it is asked, a `Scanner`. A scanner may go
on without end, deliver tokens behind an end of the input, or answer with nothing but
faults from some point on. A request that waits for such a scanner never returns, so what
a request returns is a `Part`: `Scanner.ask` has a value where the asking ends, and
`Scanner.Answers` says where that is and which value it has.

`FeedOn` is the feed on a scanner, and `Feed` is the case of a scan: a session returns the
same tokens on either, and returns always (`Feed.run_onScan`).
-/

namespace AsmExpand

universe u

/-- Something that can be asked for an item again and again. -/
class Scanner (σ : Type u) where
  /-- The item, and the scanner after it. -/
  answer : σ → Item × σ

namespace Scanner

/-- A scan answers with its items in order, and then with the end of the input. -/
instance : Scanner Scan where
  answer s :=
    match s.items with
    | [] => (.ok s.eof, s)
    | i :: items => (i, { s with items })

variable {σ : Type u} [Scanner σ]

/-- Ask once. There is a token, or a fault to record and still no token. -/
def askOnce (limit : Nat) (p : Diagnostics × σ) :
    (Token × Diagnostics × σ) ⊕ (Diagnostics × σ) :=
  match answer p.2 with
  | (.ok t, s') => .inl (Feed.checked limit t, Feed.checkedLog limit p.1 t, s')
  | (.error e, s') => .inr (p.1.report e.span (.malformed e.message), s')

/-- Ask until there is a token. If none ever comes, this has no end and no value. -/
def ask (limit : Nat) (log : Diagnostics) (s : σ) : Part (Token × Diagnostics × σ) :=
  PFun.fix (fun p => Part.some (askOnce limit p)) (log, s)

theorem askOnce_of_token {s s' : σ} {t : Token} (h : answer s = (.ok t, s')) (limit : Nat)
    (log : Diagnostics) :
    askOnce limit (log, s) = .inl (Feed.checked limit t, Feed.checkedLog limit log t, s') := by
  rw [askOnce, h]

theorem askOnce_of_fault {s s' : σ} {e : ScanError} (h : answer s = (.error e, s')) (limit : Nat)
    (log : Diagnostics) :
    askOnce limit (log, s) = .inr (log.report e.span (.malformed e.message), s') := by
  rw [askOnce, h]

theorem ask_of_token {s s' : σ} {t : Token} (h : answer s = (.ok t, s')) (limit : Nat)
    (log : Diagnostics) :
    ask limit log s = Part.some (Feed.checked limit t, Feed.checkedLog limit log t, s') := by
  refine Part.eq_some_iff.mpr (PFun.fix_stop ?_)
  rw [askOnce_of_token h]
  exact Part.mem_some _

theorem ask_of_fault {s s' : σ} {e : ScanError} (h : answer s = (.error e, s')) (limit : Nat)
    (log : Diagnostics) :
    ask limit log s = ask limit (log.report e.span (.malformed e.message)) s' := by
  refine PFun.fix_fwd_eq ?_
  rw [askOnce_of_fault h]
  exact Part.mem_some _

/-- `Answers s faults t s'`: the scanner `s` answers with `faults`, one after another, and
then with the token `t`, and is `s'` after that. -/
inductive Answers : σ → List ScanError → Token → σ → Prop where
  | token {s s' : σ} {t : Token} : answer s = (.ok t, s') → Answers s [] t s'
  | fault {s s' s'' : σ} {e : ScanError} {faults : List ScanError} {t : Token} :
      answer s = (.error e, s') → Answers s' faults t s'' → Answers s (e :: faults) t s''

/-- The diagnostics of faults, in order. -/
def reports (faults : List ScanError) : Diagnostics :=
  (faults.map fun e => { span := e.span, cause := .malformed e.message : Diagnostic }).toArray

theorem append_reports_cons (log : Diagnostics) (e : ScanError) (faults : List ScanError) :
    log ++ reports (e :: faults)
      = log.report e.span (.malformed e.message) ++ reports faults := by
  simp [reports, Diagnostics.report]

theorem ask_of_answers {s s' : σ} {faults : List ScanError} {t : Token}
    (h : Answers s faults t s') (limit : Nat) (log : Diagnostics) :
    ask limit log s
      = Part.some (Feed.checked limit t, Feed.checkedLog limit (log ++ reports faults) t, s') := by
  induction h generalizing log with
  | token h =>
    rw [ask_of_token h]
    simp [reports]
  | fault h _ ih =>
    rw [ask_of_fault h, append_reports_cons]
    exact ih _

theorem exists_answers_of_mem_ask {limit : Nat} {log : Diagnostics} {s : σ}
    {r : Token × Diagnostics × σ} (h : r ∈ ask limit log s) :
    ∃ faults t s', Answers s faults t s' ∧
      r = (Feed.checked limit t, Feed.checkedLog limit (log ++ reports faults) t, s') := by
  -- induction on the asking, which ends since there is a value
  refine PFun.fixInduction' (C := fun p => ∃ faults t s', Answers p.2 faults t s' ∧
    r = (Feed.checked limit t, Feed.checkedLog limit (p.1 ++ reports faults) t, s')) h ?_ ?_
  · rintro ⟨log, s⟩ hr
    have hr := Part.mem_some_iff.mp hr
    rcases hs : answer s with ⟨e | t, s'⟩
    · rw [askOnce_of_fault hs] at hr
      cases hr
    · rw [askOnce_of_token hs] at hr
      cases hr
      exact ⟨[], t, s', .token hs, by simp [reports]⟩
  · rintro ⟨log, s⟩ ⟨log', s'⟩ _ hr ⟨faults, t, s'', ha, rfl⟩
    have hr := Part.mem_some_iff.mp hr
    rcases hs : answer s with ⟨e | t', s₁⟩
    · rw [askOnce_of_fault hs] at hr
      cases hr
      exact ⟨e :: faults, t, s'', .fault hs ha, by rw [append_reports_cons]⟩
    · rw [askOnce_of_token hs] at hr
      cases hr

/-- **Asking ends where the scanner delivers a token**, with a report for each fault before
it. -/
theorem mem_ask_iff {limit : Nat} {log : Diagnostics} {s : σ} {r : Token × Diagnostics × σ} :
    r ∈ ask limit log s ↔ ∃ faults t s', Answers s faults t s' ∧
      r = (Feed.checked limit t, Feed.checkedLog limit (log ++ reports faults) t, s') := by
  constructor
  · exact exists_answers_of_mem_ask
  · rintro ⟨faults, t, s', h, rfl⟩
    rw [ask_of_answers h]
    exact Part.mem_some _

/-- To ask a scan is to draw from it. -/
theorem ask_scan (limit : Nat) (log : Diagnostics) (s : Scan) :
    ask limit log s =
      let d := Feed.draw limit s.endSpan log s.items
      Part.some (d.token, d.log, d.feed.scan) := by
  obtain ⟨items, endSpan⟩ := s
  induction items generalizing log with
  | nil =>
    -- the end of the input passes the check
    have h : (Token.atEof endSpan).isTooLong limit = false :=
      Token.isTooLong_of_kind_ne Kind.noConfusion limit
    rw [ask_of_token rfl, Scan.eof, Feed.checked, Feed.checkedLog, h]
    rfl
  | cons i items ih =>
    cases i with
    | ok t => exact ask_of_token rfl limit log
    | error e => exact (ask_of_fault rfl limit log).trans (ih _)

end Scanner

/-- What is done to a feed: a list is pushed, or a token requested. -/
inductive FeedOperation (α : Type u) where
  | push (ts : List α)
  | next

/-- What comes of a session: the tokens returned, the log after it and the feed behind it. -/
structure FeedRun (φ : Type u) where
  returned : List Token
  log : Diagnostics
  feed : φ

/-- Do operations on a feed in order. -/
def Feed.run (limit : Nat) : List (FeedOperation Token) → Diagnostics → Feed → FeedRun Feed
  | [], log, f => ⟨[], log, f⟩
  | .push ts :: ops, log, f => run limit ops log (f.push ts)
  | .next :: ops, log, f =>
    let d := f.next limit log
    let r := run limit ops d.log d.feed
    { r with returned := d.token :: r.returned }

/-- A feed on a scanner. -/
structure FeedOn (σ : Type u) where
  /-- The pushed lists, the last one first. -/
  pending : List (List Token) := []
  scanner : σ

namespace FeedOn

variable {σ : Type u}

/-- Put a list in front of everything else. -/
def push (f : FeedOn σ) (ts : List Token) : FeedOn σ := { f with pending := ts :: f.pending }

variable [Scanner σ]

/-- The next token, the log after it and the feed behind it. -/
def next (limit : Nat) (log : Diagnostics) (f : FeedOn σ) :
    Part (Token × Diagnostics × FeedOn σ) :=
  match Feed.popPending? f.pending with
  | some (t, pending) => Part.some (t, log, { f with pending })
  | none => (Scanner.ask limit log f.scanner).map fun (t, log, scanner) => (t, log, ⟨[], scanner⟩)

/-- Do operations in order. If a request never returns, neither does the session. -/
def run (limit : Nat) :
    List (FeedOperation Token) → Diagnostics → FeedOn σ → Part (FeedRun (FeedOn σ))
  | [], log, f => Part.some ⟨[], log, f⟩
  | .push ts :: ops, log, f => run limit ops log (f.push ts)
  | .next :: ops, log, f =>
    (f.next limit log).bind fun (t, log, f) =>
      (run limit ops log f).map fun r => { r with returned := t :: r.returned }

end FeedOn

namespace Feed

/-- The feed, with its scan as a scanner. -/
def onScan (f : Feed) : FeedOn Scan := ⟨f.pending, f.scan⟩

theorem pending_draw (limit : Nat) (endSpan : Span) (log : Diagnostics) (items : List Item) :
    (draw limit endSpan log items).feed.pending = [] := by
  fun_induction draw limit endSpan log items with
  | case1 => rfl
  | case2 => rfl
  | case3 log e items ih => exact ih

theorem next_onScan (limit : Nat) (log : Diagnostics) (f : Feed) :
    f.onScan.next limit log =
      let d := f.next limit log
      Part.some (d.token, d.log, d.feed.onScan) := by
  unfold FeedOn.next next
  cases h : popPending? f.pending with
  | some p => simp [onScan, h]
  | none => simp [onScan, h, Scanner.ask_scan, pending_draw]

/-- **On a scan every session returns**, and what it returns is what the feed delivers. -/
theorem run_onScan (limit : Nat) (ops : List (FeedOperation Token)) (log : Diagnostics)
    (f : Feed) :
    f.onScan.run limit ops log =
      let r := f.run limit ops log
      Part.some ⟨r.returned, r.log, r.feed.onScan⟩ := by
  induction ops generalizing log f with
  | nil => rfl
  | cons op ops ih =>
    cases op with
    | push ts => exact ih log (f.push ts)
    | next => simp only [FeedOn.run, next_onScan, Part.bind_some, ih, Part.map_some, run]

end Feed

end AsmExpand
