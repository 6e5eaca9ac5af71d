import AsmExpand.Stream.Basic

/-!
# What a feed delivers

How the pushed tokens are cut into lists does not matter to `Feed.next`: it
delivers the first of them, whichever list that is in, and draws from the scan
when there is none. So every fact about one delivery has two cases, a pushed
token (`next_of_pushed`) and a scan behind no pushed token (`next_of_drained`).

`Feed.delivered` is the whole sequence, up to the first end of the input. It is
the pushed tokens and then the scanned ones as they pass the check
(`delivered_eq`), and a push puts its tokens in front of it
(`delivered_push_append`).
-/

namespace AsmExpand

namespace Feed

/-- The tokens pushed and not yet delivered. -/
def pushed (f : Feed) : List Token := f.pending.flatten

/-- The tokens among items, as they are delivered. -/
def scanned (limit : Nat) : List Item → List Token
  | [] => []
  | .ok t :: items => checked limit t :: scanned limit items
  | .error _ :: items => scanned limit items

/-- The check does not change what a token is. -/
@[simp] theorem kind_checked (limit : Nat) (t : Token) : (checked limit t).kind = t.kind := by
  unfold checked
  split
  · rename_i h
    simp only [Token.isTooLong, Bool.and_eq_true, decide_eq_true_eq] at h
    exact h.1.symm
  · rfl

/-- The check leaves a token in its place. -/
@[simp] theorem span_checked (limit : Nat) (t : Token) : (checked limit t).span = t.span := by
  unfold checked
  split
  · rfl
  · rfl

@[simp] theorem pushed_push (f : Feed) (ts : List Token) : (f.push ts).pushed = ts ++ f.pushed := by
  simp [pushed, push]

@[simp] theorem scan_push (f : Feed) (ts : List Token) : (f.push ts).scan = f.scan := rfl

theorem upcoming_eq (f : Feed) : f.upcoming = f.pushed.map .ok ++ f.scan.items := rfl

/-- A pushed token is delivered as it is. -/
theorem next_of_pushed {f : Feed} {t : Token} {ts : List Token} (h : f.pushed = t :: ts)
    (limit : Nat) (log : Diagnostics) :
    (f.next limit log).token = t ∧ (f.next limit log).log = log ∧
      (f.next limit log).feed.pushed = ts ∧ (f.next limit log).feed.scan = f.scan := by
  unfold next
  cases hp : popPending? f.pending with
  | none =>
    have := flatten_of_popPending?_eq_none hp
    rw [pushed, this] at h
    cases h
  | some p =>
    obtain ⟨t', below⟩ := p
    have := flatten_of_popPending? hp
    rw [pushed, this] at h
    obtain ⟨rfl, rfl⟩ := List.cons.inj h
    exact ⟨rfl, rfl, rfl, rfl⟩

/-- Without pushed tokens the scan is read. -/
theorem next_of_drained {f : Feed} (h : f.pushed = []) (limit : Nat) (log : Diagnostics) :
    f.next limit log = draw limit f.scan.endSpan log f.scan.items := by
  unfold next
  cases hp : popPending? f.pending with
  | none => rfl
  | some p =>
    obtain ⟨t, below⟩ := p
    have := flatten_of_popPending? hp
    rw [pushed, this] at h
    cases h

/-- What was reported before does not matter to what is drawn. -/
theorem draw_log (limit : Nat) (endSpan : Span) (items : List Item) :
    ∀ log log', (draw limit endSpan log items).token = (draw limit endSpan log' items).token ∧
      (draw limit endSpan log items).feed = (draw limit endSpan log' items).feed := by
  induction items with
  | nil =>
    intro log log'
    exact ⟨rfl, rfl⟩
  | cons i items ih =>
    intro log log'
    cases i with
    | ok t => exact ⟨rfl, rfl⟩
    | error e => exact ih _ _

/-- What a draw reports is added to the log, whatever that is. -/
theorem exists_draw_log (limit : Nat) (endSpan : Span) (items : List Item) :
    ∃ ds, ∀ log, (draw limit endSpan log items).log = log ++ ds := by
  induction items with
  | nil => exact ⟨#[], fun log => Array.append_empty.symm⟩
  | cons i items ih =>
    cases i with
    | ok t =>
      by_cases h : t.isTooLong limit
      · exact ⟨#[{ span := t.span, cause := .stringTooLong }], fun log => by
          simp [draw, checkedLog, h, Diagnostics.report]⟩
      · exact ⟨#[], fun log => by simp [draw, checkedLog, h]⟩
    | error e =>
      obtain ⟨ds, hds⟩ := ih
      refine ⟨#[{ span := e.span, cause := .malformed e.message }] ++ ds, fun log => ?_⟩
      rw [draw, hds, ← Array.append_assoc, Array.append_singleton]
      rfl

/-- What was reported before does not matter to what is delivered. -/
theorem next_log (limit : Nat) (f : Feed) (log log' : Diagnostics) :
    (f.next limit log).token = (f.next limit log').token ∧
      (f.next limit log).feed = (f.next limit log').feed := by
  unfold next
  cases popPending? f.pending with
  | none => exact draw_log limit _ _ log log'
  | some p => exact ⟨rfl, rfl⟩

/-- What a delivery reports is added to the log, whatever that is. -/
theorem exists_next_log (limit : Nat) (f : Feed) :
    ∃ ds, ∀ log, (f.next limit log).log = log ++ ds := by
  unfold next
  cases popPending? f.pending with
  | none => exact exists_draw_log limit _ _
  | some p => exact ⟨#[], fun log => Array.append_empty.symm⟩

/-- The tokens that a feed delivers before the end of the input. -/
def delivered (limit : Nat) (f : Feed) : List Token :=
  let d := f.next limit #[]
  if _h : d.token.kind = .eof then [] else d.token :: delivered limit d.feed
termination_by f.size
decreasing_by
  have := live_next_add_size_le limit #[] f
  have := Token.live_of_kind_ne (t := (f.next limit #[]).token) _h
  omega

/-- A delivery takes the first token of the sequence, whatever was reported before. -/
theorem delivered_next (limit : Nat) (log : Diagnostics) (f : Feed) :
    f.delivered limit =
      if (f.next limit log).token.kind = .eof then []
      else (f.next limit log).token :: (f.next limit log).feed.delivered limit := by
  obtain ⟨ht, hf⟩ := next_log limit f log #[]
  rw [ht, hf, delivered]
  simp only [dite_eq_ite]

theorem draw_scanned (limit : Nat) (endSpan : Span) (items : List Item) : ∀ log,
    (draw limit endSpan log items).feed.pushed = [] ∧
      (scanned limit items = [] ∧ (draw limit endSpan log items).token.kind = .eof ∨
        scanned limit items = (draw limit endSpan log items).token ::
          scanned limit (draw limit endSpan log items).feed.scan.items) := by
  induction items with
  | nil =>
    intro log
    exact ⟨rfl, Or.inl ⟨rfl, rfl⟩⟩
  | cons i items ih =>
    intro log
    cases i with
    | ok t => exact ⟨rfl, Or.inr rfl⟩
    | error e => exact ih _

/-- **The sequence is the pushed tokens and then the scanned ones**, up to the first
end of the input. -/
theorem delivered_eq (limit : Nat) (f : Feed) :
    f.delivered limit
      = (f.pushed ++ scanned limit f.scan.items).takeWhile (fun t => decide (t.kind ≠ .eof)) := by
  fun_induction delivered limit f with
  | case1 f d h =>
    cases hp : f.pushed with
    | nil =>
      rw [show d = _ from next_of_drained hp limit #[]] at h
      rcases (draw_scanned limit f.scan.endSpan f.scan.items #[]).2 with ⟨hs, _⟩ | hs
      · rw [hs]
        rfl
      · rw [List.nil_append, hs, List.takeWhile_cons_of_neg (by simpa using h)]
    | cons t ts =>
      have ht := (next_of_pushed hp limit #[]).1
      rw [show d.token = t from ht] at h
      rw [List.cons_append, List.takeWhile_cons_of_neg (by simpa using h)]
  | case2 f d h ih =>
    cases hp : f.pushed with
    | nil =>
      have hd : d = _ := next_of_drained hp limit #[]
      obtain ⟨hq, hs⟩ := draw_scanned limit f.scan.endSpan f.scan.items #[]
      rw [← hd] at hq hs
      rcases hs with ⟨_, hk⟩ | hs
      · exact absurd hk h
      · rw [List.nil_append, hs, List.takeWhile_cons_of_pos (by simpa using h), ih, hq]
        rfl
    | cons t ts =>
      obtain ⟨ht, _, hq, hs⟩ := next_of_pushed hp limit #[]
      rw [List.cons_append, ← ht, List.takeWhile_cons_of_pos (by simpa using h), ih]
      rw [show d.feed.pushed = ts from hq, show d.feed.scan = f.scan from hs]

/-- Tokens pushed before others come before them. -/
theorem delivered_push_append {ts : List Token} (h : ∀ t ∈ ts, t.kind ≠ .eof) (us : List Token)
    (limit : Nat) (f : Feed) :
    (f.push (ts ++ us)).delivered limit = ts ++ (f.push us).delivered limit := by
  simp only [delivered_eq, pushed_push, scan_push, List.append_assoc]
  exact List.takeWhile_append_of_pos (by simpa using h)

/-- A pushed token comes first, and nothing is seen behind an end of the input. -/
theorem delivered_push_singleton (t : Token) (limit : Nat) (f : Feed) :
    (f.push [t]).delivered limit = if t.kind = .eof then [] else t :: f.delivered limit := by
  simp only [delivered_eq, pushed_push, scan_push, List.cons_append, List.nil_append]
  by_cases h : t.kind = .eof
  · rw [if_pos h, List.takeWhile_cons_of_neg (by simpa using h)]
  · rw [if_neg h, List.takeWhile_cons_of_pos (by simpa using h)]

/-! ## Tokens delivered as they are -/

/-- `f.Delivers limit ts g`: the feed `f` delivers `ts`, without a report, and then
holds what `g` holds. -/
inductive Delivers (limit : Nat) : Feed → List Token → Feed → Prop where
  | done {f g : Feed} : f.pushed = g.pushed → f.scan = g.scan → Delivers limit f [] g
  | next {f g h : Feed} {t : Token} {ts : List Token} :
      (∀ log, f.next limit log = ⟨t, log, h⟩) → Delivers limit h ts g → Delivers limit f (t :: ts) g

/-- A pushed token comes out alone, whatever the log. -/
theorem exists_next_of_pushed {f : Feed} {t : Token} {ts : List Token} (h : f.pushed = t :: ts)
    (limit : Nat) :
    ∃ g : Feed, g.pushed = ts ∧ g.scan = f.scan ∧ ∀ log, f.next limit log = ⟨t, log, g⟩ := by
  obtain ⟨_, _, hp, hs⟩ := next_of_pushed h limit #[]
  refine ⟨_, hp, hs, ?_⟩
  intro log
  obtain ⟨ht, hl, _, _⟩ := next_of_pushed h limit log
  calc f.next limit log
      = ⟨(f.next limit log).token, (f.next limit log).log, (f.next limit log).feed⟩ := rfl
    _ = ⟨t, log, (f.next limit #[]).feed⟩ := by rw [ht, hl, (next_log limit f log #[]).2]

namespace Delivers

variable {limit : Nat} {f f' g : Feed} {ts us : List Token}

/-- It does not matter how the pushed tokens are cut into lists. -/
theorem of_same (h : Delivers limit f ts g) (hp : f.pushed = f'.pushed) (hs : f.scan = f'.scan) :
    Delivers limit f' ts g := by
  induction h generalizing f' with
  | done hp' hs' => exact .done (hp.symm.trans hp') (hs.symm.trans hs')
  | @next f g h t ts hn hd ih =>
    cases hq : f.pushed with
    | nil =>
      -- both read the same scan
      refine .next (h := h) ?_ hd
      intro log
      rw [← hn log, next_of_drained hq, next_of_drained (hp.symm.trans hq), hs]
    | cons x xs =>
      obtain ⟨h₁, hp₁, hs₁, hn₁⟩ := exists_next_of_pushed hq limit
      obtain ⟨h₂, hp₂, hs₂, hn₂⟩ := exists_next_of_pushed (hp.symm.trans hq) limit
      have he := (hn₁ #[]).symm.trans (hn #[])
      cases he
      exact .next hn₂ (ih (hp₁.trans hp₂.symm) (by rw [hs₁, hs₂, hs]))

theorem append {h : Feed} (hf : Delivers limit f ts g) (hg : Delivers limit g us h) :
    Delivers limit f (ts ++ us) h := by
  induction hf with
  | done hp hs => exact hg.of_same hp.symm hs.symm
  | next hn _ ih => exact .next hn (ih hg)

/-- Between two parts of what is delivered there is a feed. -/
theorem exists_between (ts us : List Token) (h : Delivers limit f (ts ++ us) g) :
    ∃ m, Delivers limit f ts m ∧ Delivers limit m us g := by
  induction ts generalizing f with
  | nil => exact ⟨f, .done rfl rfl, h⟩
  | cons t ts ih =>
    cases h with
    | next hn hd =>
      obtain ⟨m, hts, hus⟩ := ih hd
      exact ⟨m, .next hn hts, hus⟩

/-- What is pushed comes first. -/
theorem push (h : Delivers limit f us g) (ts : List Token) :
    Delivers limit (f.push ts) (ts ++ us) g := by
  induction ts with
  | nil => exact h.of_same (by simp) rfl
  | cons t ts ih =>
    obtain ⟨h', hp, hs, hn⟩ := exists_next_of_pushed (f := f.push (t :: ts)) (pushed_push f _) limit
    exact .next hn (ih.of_same (by rw [hp, pushed_push]; rfl) (by rw [hs]; rfl))

/-- Upcoming tokens are delivered as they are, if the check lets them pass. -/
theorem of_upcoming (limit : Nat) {rest : List Item} (h : f.upcoming = ts.map .ok ++ rest)
    (fits : ∀ t ∈ ts, t.isTooLong limit = false) :
    ∃ g : Feed, Delivers limit f ts g ∧ g.upcoming = rest ∧ g.scan.endSpan = f.scan.endSpan := by
  induction ts generalizing f with
  | nil => exact ⟨f, .done rfl rfl, h, rfl⟩
  | cons t ts ih =>
    have hfits := fits t List.mem_cons_self
    have hnext : ∃ g : Feed, (∀ log, f.next limit log = ⟨t, log, g⟩) ∧
        g.upcoming = ts.map .ok ++ rest ∧ g.scan.endSpan = f.scan.endSpan := by
      cases hp : f.pushed with
      | nil =>
        rw [upcoming_eq, hp] at h
        refine ⟨⟨[], ⟨ts.map .ok ++ rest, f.scan.endSpan⟩⟩, ?_, rfl, rfl⟩
        intro log
        rw [next_of_drained hp, show f.scan.items = .ok t :: (ts.map .ok ++ rest) from h, draw,
          checked, checkedLog, hfits]
        rfl
      | cons x xs =>
        rw [upcoming_eq, hp] at h
        obtain ⟨hx, hrest⟩ := List.cons.inj h
        obtain ⟨g, hg, hs, hn⟩ := exists_next_of_pushed hp limit
        rw [Except.ok.inj hx] at hn
        refine ⟨g, hn, ?_, by rw [hs]⟩
        rw [upcoming_eq, hg, hs]
        exact hrest
    obtain ⟨g, hn, hup, he⟩ := hnext
    obtain ⟨g', hd, hup', he'⟩ := ih hup fun x hx => fits x (List.mem_cons_of_mem _ hx)
    exact ⟨g', .next hn hd, hup', he'.trans he⟩

/-- The scan delivers tokens that the check lets pass, and then what is behind them. -/
theorem scanned (fits : ∀ t ∈ ts, t.isTooLong limit = false)
    (items : List Item) (endSpan : Span) :
    Delivers limit ⟨[], ⟨ts.map .ok ++ items, endSpan⟩⟩ ts ⟨[], ⟨items, endSpan⟩⟩ := by
  induction ts with
  | nil => exact .done rfl rfl
  | cons t ts ih =>
    refine .next (fun log => ?_) (ih fun x hx => fits x (List.mem_cons_of_mem _ hx))
    have ht := fits t List.mem_cons_self
    rw [next_of_drained rfl, List.map_cons, List.cons_append, draw, checked, checkedLog, ht]
    rfl

/-- A pushed list is delivered, and then what was there before. -/
theorem pushed (limit : Nat) (f : Feed) (ts : List Token) :
    Delivers limit (f.push ts) ts f := by
  have h : Delivers limit f [] f := .done rfl rfl
  have := h.push ts
  rwa [List.append_nil] at this

/-- A feed with nothing to come delivers the end of the input. -/
theorem atEof (limit : Nat) (h : f.upcoming = []) :
    ∃ g : Feed, Delivers limit f [.atEof f.scan.endSpan] g ∧ g.upcoming = [] := by
  rw [upcoming_eq, List.append_eq_nil_iff, List.map_eq_nil_iff] at h
  refine ⟨⟨[], ⟨[], f.scan.endSpan⟩⟩, .next (fun log => ?_) (.done rfl rfl), rfl⟩
  rw [next_of_drained h.1, h.2]
  rfl

end Delivers

end Feed

namespace Stream

/-- A pushed token becomes current as it is. -/
theorem fetch_of_pushed {s : Stream} {t : Token} {ts : List Token} (h : s.feed.pushed = t :: ts)
    (settings : Settings) :
    (s.fetch settings).current = t ∧ (s.fetch settings).log = s.log ∧
      (s.fetch settings).feed.pushed = ts ∧ (s.fetch settings).feed.scan = s.feed.scan :=
  Feed.next_of_pushed h settings.limits.maxStringLength s.log

/-- Without pushed tokens a fetch draws from the scan. -/
theorem fetch_of_drained {s : Stream} (h : s.feed.pushed = []) (settings : Settings) :
    s.fetch settings =
      let d := Feed.draw settings.limits.maxStringLength s.feed.scan.endSpan s.log s.feed.scan.items
      { s with feed := d.feed, current := d.token, log := d.log } := by
  rw [fetch, Feed.next_of_drained h]

/-- What a fetch reports is added to the log. -/
theorem exists_log_fetch (settings : Settings) (s : Stream) :
    ∃ ds, (s.fetch settings).log = s.log ++ ds := by
  obtain ⟨ds, hds⟩ := Feed.exists_next_log settings.limits.maxStringLength s.feed
  exact ⟨ds, hds s.log⟩

end Stream

end AsmExpand
