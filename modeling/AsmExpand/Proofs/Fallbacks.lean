import AsmExpand.Proofs.Composition
import AsmExpand.Proofs.EarlierReports
import AsmExpand.Proofs.ExpressionFaults
import AsmExpand.Proofs.Pushback

/-!
# Arguments out of range

A count or a start that is out of range is reported, and a fixed number stands in for it. So a
call with such an argument should do what the same call does with that number written in its
place, the report apart. Two streams are compared here: one is about to read the call as it is
(`StandsFor` lists the arguments), and the other the call with the number.

Up to the argument both do the same. To read it they go different ways, as the argument may be
any expression, but both come to the comma behind it, with the same number and the same feed.
From there on the streams differ by one report in their logs (`Lags`), and this is a lockstep,
made of the two that say that feeds may hold the same in different ways and that earlier reports
do not matter. So no more has to be known about what stands behind the comma.
-/

namespace AsmExpand

open Grammar

/-- A log with one diagnostic more for each of a list, and otherwise the same. -/
def Diagnostics.Adds : List Diagnostic → Diagnostics → Diagnostics → Prop
  | [], log, more => more = log
  | d :: ds, log, more =>
    ∃ before after, more = before.push d ++ after ∧ Adds ds log (before ++ after)

/-- A number as a token. -/
def Token.IsNumber (t : Token) (n : Int64) : Prop := t.kind = .int ∧ t.int? = some n

/-- Tokens that are an expression, without a call in it, whose value is no count; and the place
of the first of them. -/
structure OutOfRange (settings : Settings) (ts : List Token) (place : Span) : Prop where
  first : ts.head?.map Token.span = some place
  value : ∃ e v, Derives .whole ts e ∧ e.eval settings.symbols = .ok v ∧
    ¬(0 ≤ v ∧ v ≤ settings.limits.argumentLimit)

/-- `StandsFor settings fn given fallback place`: what a call has behind its opening parenthesis,
up to an argument that is out of range, and what it would have with the number that stands for
that argument. What else follows `start` in the call may be given as well. -/
inductive StandsFor (settings : Settings) : TokenFunction → List Token → List Token → Span → Prop
    where
  | left {ts : List Token} {x : Token} {place : Span} : OutOfRange settings ts place →
      x.IsNumber 1 → StandsFor settings .left ts [x] place
  | right {ts : List Token} {x : Token} {place : Span} : OutOfRange settings ts place →
      x.IsNumber 1 → StandsFor settings .right ts [x] place
  | start {ts behind : List Token} {x : Token} {place : Span} : OutOfRange settings ts place →
      x.IsNumber 0 → (∀ y ∈ behind.head?, y.kind = .comma) →
      StandsFor settings .mid (ts ++ behind) (x :: behind) place
  /-- The start may be any expression, with calls in it. -/
  | count {ps : List Phrase} {comma : Token} {e : Expr} {ts : List Token} {x : Token}
      {place : Span} : (∀ p ∈ ps, p.Readable settings) →
      Derives .whole (Phrase.allMeaning ps) e → comma.kind = .comma → OutOfRange settings ts place →
      x.IsNumber 1 →
      StandsFor settings .mid (Phrase.allTokens ps ++ comma :: ts)
        (Phrase.allTokens ps ++ [comma, x]) place

/-- Arguments out of range, one after the other, each replaced by the number that stands for it. -/
inductive Replaced (settings : Settings) (fn : TokenFunction) :
    List Token → List Token → List Span → Prop where
  | none (ts : List Token) : Replaced settings fn ts ts []
  | one {given between fallback : List Token} {place : Span} {places : List Span} :
      StandsFor settings fn given between place → Replaced settings fn between fallback places →
      Replaced settings fn given fallback (place :: places)

/-! ## Calls that count -/

namespace Advance

variable (a : Advance) (settings : Settings)

/-- Go on with what is chosen of an argument list, the comma before the list being next. -/
def windowed (choose : List Token → List Token) (s : Stream) : Stream :=
  let r := a.collect 0 (a.consumeComma s).2
  a (r.2.push (choose r.1 ++ [r.2.current]))

theorem expand_left (s : Stream) :
    a.expand settings .left s =
      let r := a.rangeArgument settings 1 (a.consumeLeftParen (a s)).2
      a.windowed (Window.slice 0 r.1) r.2 := rfl

theorem expand_right (s : Stream) :
    a.expand settings .right s =
      let r := a.rangeArgument settings 1 (a.consumeLeftParen (a s)).2
      a.windowed (Window.last r.1) r.2 := rfl

theorem expand_mid (s : Stream) :
    a.expand settings .mid s =
      let start := a.rangeArgument settings 0 (a.consumeLeftParen (a s)).2
      let r := a.rangeArgument settings 1 (a.consumeComma start.2).2
      a.windowed (Window.slice start.1 r.1) r.2 := rfl

/-- An argument in range is its value, and another one is the fallback and reported. -/
theorem rangeArgument_of_read {s t : Stream} {e : Expr} {v : Int64} (fallback : Nat)
    (h : (a.expression s).read = (e, t)) (hv : e.eval settings.symbols = .ok v) :
    a.rangeArgument settings fallback s =
      if 0 ≤ v ∧ v ≤ settings.limits.argumentLimit then (v.toInt.toNat, t)
      else (fallback, t.reportAt s.current.span .rangeError) := by
  rw [rangeArgument, constant_eq, h]
  dsimp only
  rw [hv]

/-- What becomes of an argument depends on its tree and on its first place only. -/
theorem exists_rangeArgument (settings : Settings) (fallback : Nat) (place : Span) (e : Expr) :
    ∃ n ds, ∀ (a : Advance) (s t : Stream), (a.expression s).read = (e, t) →
      s.current.span = place →
      a.rangeArgument settings fallback s = (n, { t with log := t.log ++ ds }) := by
  cases hv : e.eval settings.symbols with
  | ok v =>
    by_cases hr : 0 ≤ v ∧ v ≤ settings.limits.argumentLimit
    · refine ⟨v.toInt.toNat, #[], fun a s t h _ => ?_⟩
      rw [a.rangeArgument_of_read settings fallback h hv, if_pos hr, Array.append_empty]
    · refine ⟨fallback, #[{ span := place, cause := .rangeError }], fun a s t h hp => ?_⟩
      rw [a.rangeArgument_of_read settings fallback h hv, if_neg hr, hp, Array.append_singleton]
      rfl
  | error f =>
    by_cases hr : (0 : Int64) ≤ 0 ∧ 0 ≤ settings.limits.argumentLimit
    · refine ⟨(0 : Int64).toInt.toNat,
        #[{ span := f.span, cause := .expression f.fault.message }], fun a s t h _ => ?_⟩
      rw [rangeArgument, constant_eq, h]
      dsimp only
      rw [hv, Array.append_singleton]
      exact if_pos hr
    · refine ⟨fallback, #[{ span := f.span, cause := .expression f.fault.message },
        { span := place, cause := .rangeError }], fun a s t h hp => ?_⟩
      rw [rangeArgument, constant_eq, h]
      dsimp only
      rw [hv, hp]
      exact (if_neg hr).trans rfl

end Advance

/-! ## Reading an argument -/

section

variable {settings : Settings} {s t : Stream} {f g : Feed} {name opener x : Token}
  {ts xs : List Token} {fn : TokenFunction}

/-- An expected token is consumed, and the next one is current. -/
theorem consume_of_next {k : Kind} (absent : Cause) (hk : s.kind = k)
    (hn : ∀ log, s.feed.next settings.limits.maxStringLength log = ⟨x, log, g⟩)
    (hx : x.kind.function? = none) :
    ((Advance.full settings).consume k absent s).2 = { s with feed := g, current := x } := by
  rw [Advance.consume, if_pos hk]
  exact advance_of_plain hn hx

/-- Taking the function token and the opening parenthesis of a call leads to the token behind. -/
theorem exists_entered (hraw : s.rawDepth = 0) (hname : name.kind = .call fn)
    (hopener : opener.kind = .leftParen) (hx : x.kind.function? = none)
    (hd : s.feed.Delivers settings.limits.maxStringLength (name :: opener :: x :: xs) f) :
    ∃ s₀ u : Stream, s.advance settings = (Advance.full settings).expand settings fn s₀ ∧
      ((Advance.full settings).consumeLeftParen (Advance.full settings s₀)).2 = u ∧
      u.current = x ∧ u.rawDepth = 0 ∧ u.log = s.log ∧
      u.feed.Delivers settings.limits.maxStringLength xs f := by
  cases hd with
  | @next _ _ g _ _ hn hd =>
    obtain ⟨_, ha⟩ := advance_of_call hraw hn hname
    cases hd with
    | @next _ _ g' _ _ hn hd =>
      have hopen : Advance.full settings _ = { s with feed := g', current := opener } :=
        advance_of_plain (s := { s with feed := g, current := name }) hn (by rw [hopener]; rfl)
      cases hd with
      | @next _ _ g'' _ _ hn hd =>
        refine ⟨_, { s with feed := g'', current := x }, ha, ?_, rfl, hraw, rfl, hd⟩
        rw [hopen]
        exact consume_of_next (s := { s with feed := g', current := opener }) _ hopener hn hx

/-- What phrases mean is shown one by one. -/
theorem exists_shown {e : Ending} {m : Nat} (fol : Follows settings e m)
    (h : Shows settings e m s (ts ++ [e.stop])) :
    ∃ u : Stream, (Advance.full settings).Shows s ts u ∧ Shows settings e m u [e.stop] := by
  induction ts generalizing s with
  | nil => exact ⟨s, .here s, h⟩
  | cons x ts ih =>
    obtain ⟨u, hu, hstop⟩ := ih (h.advance fol (by simp))
    exact ⟨u, Advance.Shows.cons_iff.mpr ⟨h.current, hu⟩, hstop⟩

/-- Tokens without calls are shown one by one, and then whatever the feed has behind them. -/
theorem exists_last_shown (hd : s.feed.Delivers settings.limits.maxStringLength ts f)
    (hp : ∀ x ∈ ts, x.kind.function? = none) :
    ∃ u : Stream, (Advance.full settings).Shows s (s.current :: ts) (u.advance settings) ∧
      u.rawDepth = s.rawDepth ∧ u.log = s.log ∧
      u.feed.Delivers settings.limits.maxStringLength [] f := by
  induction ts generalizing s with
  | nil => exact ⟨s, .step (.here _), rfl, rfl, hd⟩
  | cons x ts ih =>
    cases hd with
    | @next _ _ h _ _ hn hd =>
      obtain ⟨u, hu, hrest⟩ := ih (s := { s with feed := h, current := x }) hd
        fun y hy => hp y (List.mem_cons_of_mem _ hy)
      refine ⟨u, .step ?_, hrest⟩
      rwa [show Advance.full settings s = _ from advance_of_plain hn (hp x List.mem_cons_self)]

/-- A fetch from a feed that holds the same takes the same token. -/
theorem kind_fetch (hd : s.feed.Delivers settings.limits.maxStringLength [] f) :
    (s.fetch settings).kind = (f.next settings.limits.maxStringLength #[]).token.kind := by
  cases hd with
  | done hp hs =>
    rw [(Feed.next_log _ f #[] s.log).1, (Feed.Alike.next_of_same hp hs s.log).1]
    rfl

/-- **An argument without calls is read up to the comma behind it.** The comma is fetched then,
with whatever that reports. -/
theorem exists_argument {e : Expr} (he : Derives .whole (s.current :: ts) e)
    (hd : s.feed.Delivers settings.limits.maxStringLength ts f)
    (hcomma : (f.next settings.limits.maxStringLength #[]).token.kind = .comma) :
    ∃ u : Stream, ((Advance.full settings).expression s).read = (e, u.advance settings) ∧
      u.rawDepth = s.rawDepth ∧ u.log = s.log ∧
      u.feed.Delivers settings.limits.maxStringLength [] f := by
  obtain ⟨u, hshow, hraw, hlog, hu⟩ := exists_last_shown hd fun x hx =>
    (he.plain_of_mem x (List.mem_cons_of_mem _ hx)).1
  refine ⟨u, (Advance.comes_of_derives he hshow).read ?_, hraw, hlog, hu⟩
  have hk : (u.fetch settings).kind = .comma := (kind_fetch hu).trans hcomma
  change (u.advance settings).kind.goesOn = false
  rw [Stream.advance_of_passing settings (Or.inr (by rw [hk]; rfl)), hk]
  rfl

end

/-! ## One report more -/

/-- The first stream has one diagnostic more in its log, behind `before`, and goes on like the
second. -/
def Lags (settings : Settings) (before : Diagnostics) (d : Diagnostic) (s t : Stream) : Prop :=
  ∃ m, Relogged (before.push d) before s m ∧ Alike settings m t

namespace Lags

variable {settings : Settings} {before : Diagnostics} {d : Diagnostic} {s t : Stream}

/-- Earlier reports do not matter, and how the feed holds its tokens does not either. -/
theorem lockstep (settings : Settings) (before : Diagnostics) (d : Diagnostic) :
    Lockstep id settings
      (fun s t => ∃ m, Relogged (before.push d) before s m ∧ FeedsAlike settings m t)
      (Lags settings before d) :=
  (Relogged.lockstep settings (before.push d) before).comp (FeedsAlike.lockstep settings)

/-- Streams that differ in one diagnostic that one of them has just reported. -/
theorem report (h : Alike settings s t) (span : Span) (cause : Cause) :
    Lags settings s.log { span := span, cause := cause } (s.reportAt span cause) t :=
  ⟨s, Relogged.start (s.reportAt span cause) s.log, h⟩

theorem iterate (h : Lags settings before d s t) (n : Nat) :
    Lags settings before d ((Stream.advance settings)^[n] s) ((Stream.advance settings)^[n] t) :=
  (lockstep settings before d).iterate (fun ⟨m, hm, ha⟩ => ⟨m, hm, ha.toFeedsAlike⟩) n h

/-- What is chosen of an argument list comes next on both sides. -/
theorem windowed (h : Lags settings before d s t) {choose : List Token → List Token}
    (part : ∀ ts, (choose ts).Sublist ts) :
    Lags settings before d ((Advance.full settings).windowed choose s)
      ((Advance.full settings).windowed choose t) := by
  have lock := lockstep settings before d
  have sim := lock.simulation
  obtain ⟨_, hcomma⟩ := sim.consume h .comma .commaExpected
  obtain ⟨hlist, hbehind⟩ := sim.collect hcomma 0
  have hmem := @Invariant.mem_collect _ _ _ sim.invariant ⟨_, hcomma⟩ 0
  have hwindow := lock.window hbehind _ fun x hx => hmem ((part _).subset hx)
  have hsame : ∀ ts : List Token, ts.map (Token.mapSpan id) = ts := fun ts => List.map_id ts
  rw [hsame] at hlist hwindow
  have hnext := lock.advance hwindow
  unfold Advance.windowed Advance.consumeComma
  dsimp only
  rw [hlist]
  exact hnext

/-- **An argument out of range is as good as the number that stands for it**, but for one report
at its first token, behind what was reported up to the comma. -/
theorem of_argument {ts : List Token} {place : Span} {f g : Feed} {n : Int64} {fallback : Nat}
    (houtside : OutOfRange settings (s.current :: ts) place)
    (hs : s.feed.Delivers settings.limits.maxStringLength ts f)
    (hcomma : (f.next settings.limits.maxStringLength #[]).token.kind = .comma)
    (hnumber : t.current.IsNumber n) (hrange : 0 ≤ n ∧ n ≤ settings.limits.argumentLimit)
    (hn : n.toInt.toNat = fallback)
    (ht : t.feed.Delivers settings.limits.maxStringLength [] g)
    (hfg : f.Alike settings.limits.maxStringLength g) (hraw : t.rawDepth = s.rawDepth)
    (hlog : t.log = s.log) :
    ∃ before n, ∃ s' t' : Stream,
      (Advance.full settings).rangeArgument settings fallback s = (n, s') ∧
      (Advance.full settings).rangeArgument settings fallback t = (n, t') ∧
      Lags settings before { span := place, cause := .rangeError } s' t' := by
  obtain ⟨e, v, he, hv, hvalue⟩ := houtside.value
  obtain ⟨u, hreads, hus, hul, huf⟩ := exists_argument he hs hcomma
  have hcomma' : (g.next settings.limits.maxStringLength #[]).token.kind = .comma := by
    rw [(hfg.next #[]).1, hcomma]
  obtain ⟨w, hreadt, hws, hwl, hwf⟩ := exists_argument (.of_atom (.number hnumber.1)) ht hcomma'
  -- behind the argument the feeds are alike, so the same comma comes with the same reports
  have hfeeds : FeedsAlike settings u w := by
    obtain ⟨xs, h, hf, hg⟩ := hfg
    exact ⟨⟨xs, h, huf.append hf, hwf.append hg⟩, by rw [hws, hraw, hus], by rw [hwl, hlog, hul]⟩
  have hplace : s.current.span = place := Option.some.inj houtside.first
  refine ⟨_, fallback, _, _, ?_, ?_, report (Alike.advance hfeeds) place .rangeError⟩
  · rw [Advance.rangeArgument_of_read _ settings fallback hreads hv, if_neg hvalue, hplace]
  · rw [Advance.rangeArgument_of_read _ settings fallback hreadt (by rw [hnumber.2]; rfl),
      Option.getD_some, if_pos hrange, hn]

end Lags

/-! ## The three calls -/

/-- Two streams outside raw mode are about to read a call, with `given` and with `fallback` behind
its opening parenthesis. Behind that a comma is next, and everything is the same. -/
structure BothCall (settings : Settings) (fn : TokenFunction) (name opener : Token)
    (given fallback : List Token) (rest : Feed) (s t : Stream) : Prop where
  calls : name.kind = .call fn
  opens : opener.kind = .leftParen
  comma : (rest.next settings.limits.maxStringLength #[]).token.kind = .comma
  given : s.feed.Delivers settings.limits.maxStringLength (name :: opener :: given) rest
  fallback : t.feed.Delivers settings.limits.maxStringLength (name :: opener :: fallback) rest
  rawDepth : s.rawDepth = 0
  rawDepth' : t.rawDepth = 0
  log : t.log = s.log

section

variable {settings : Settings} {s t : Stream} {rest : Feed} {name opener x : Token}
  {given fallback : List Token} {place : Span} {fn : TokenFunction}

/-- A call with one count. -/
theorem exists_lags_of_count {choose : Nat → List Token → List Token}
    (expand : ∀ s, (Advance.full settings).expand settings fn s =
      let r := (Advance.full settings).rangeArgument settings 1
        ((Advance.full settings).consumeLeftParen (Advance.full settings s)).2
      (Advance.full settings).windowed (choose r.1) r.2)
    (part : ∀ n ts, (choose n ts).Sublist ts) (hlimit : 1 ≤ settings.limits.argumentLimit)
    (hgiven : OutOfRange settings given place) (hx : x.IsNumber 1)
    (h : BothCall settings fn name opener given [x] rest s t) :
    ∃ before, Lags settings before { span := place, cause := .rangeError } (s.advance settings)
      (t.advance settings) := by
  obtain ⟨e, v, he, _⟩ := hgiven.value
  obtain ⟨y, ys, rfl, _⟩ := he.head
  obtain ⟨s₀, u, has, hus, rfl, hud, hul, huf⟩ := exists_entered h.rawDepth h.calls h.opens
    (he.plain_of_mem y List.mem_cons_self).1 h.given
  obtain ⟨t₀, w, hat, hwt, rfl, hwd, hwl, hwf⟩ := exists_entered h.rawDepth' h.calls h.opens
    (by rw [hx.1]; rfl) h.fallback
  obtain ⟨before, n, s', t', hs', ht', hlags⟩ := Lags.of_argument hgiven huf h.comma hx
    ⟨by decide, hlimit⟩ (show _ = 1 from rfl) hwf (.refl _ _) (by rw [hwd, hud])
    (by rw [hwl, hul, h.log])
  refine ⟨before, ?_⟩
  rw [has, hat, expand, expand, hus, hwt, hs', ht']
  exact hlags.windowed (part n)

/-- A call whose start is out of range, with anything behind the comma. -/
theorem exists_lags_of_start {behind : List Token} (hlimit : 1 ≤ settings.limits.argumentLimit)
    (hgiven : OutOfRange settings given place) (hx : x.IsNumber 0)
    (hbehind : ∀ y ∈ behind.head?, y.kind = .comma)
    (h : BothCall settings .mid name opener (given ++ behind) (x :: behind) rest s t) :
    ∃ before, Lags settings before { span := place, cause := .rangeError } (s.advance settings)
      (t.advance settings) := by
  obtain ⟨e, v, he, _⟩ := hgiven.value
  obtain ⟨y, ys, rfl, _⟩ := he.head
  obtain ⟨f, hs, hf⟩ := Feed.Delivers.exists_between (name :: opener :: y :: ys) behind h.given
  obtain ⟨g, ht, hg⟩ := Feed.Delivers.exists_between [name, opener, x] behind h.fallback
  obtain ⟨s₀, u, has, hus, rfl, hud, hul, huf⟩ := exists_entered h.rawDepth h.calls h.opens
    (he.plain_of_mem y List.mem_cons_self).1 hs
  obtain ⟨t₀, w, hat, hwt, rfl, hwd, hwl, hwf⟩ := exists_entered h.rawDepth' h.calls h.opens
    (by rw [hx.1]; rfl) ht
  have hcomma' : (f.next settings.limits.maxStringLength #[]).token.kind = .comma := by
    cases hf with
    | done hp hscan =>
      rw [← (Feed.Alike.next_of_same hp hscan #[]).1]
      exact h.comma
    | next hn _ =>
      rw [hn]
      exact hbehind _ rfl
  obtain ⟨before, n, s', t', hs', ht', hlags⟩ := Lags.of_argument hgiven huf hcomma' hx
    ⟨by decide, Int64.le_trans (by decide) hlimit⟩ (show _ = 0 from rfl) hwf ⟨behind, rest, hf, hg⟩
    (by rw [hwd, hud]) (by rw [hwl, hul, h.log])
  refine ⟨before, ?_⟩
  have sim := (Lags.lockstep settings before { span := place, cause := .rangeError }).simulation
  obtain ⟨_, hlags⟩ := sim.consume hlags .comma .commaExpected
  obtain ⟨hcount, hlags⟩ := sim.rangeArgument hlags settings 1
  rw [has, hat, Advance.expand_mid, Advance.expand_mid, hus, hwt, hs', ht']
  dsimp only [Advance.consumeComma]
  rw [hcount]
  exact hlags.windowed (Window.slice_sublist _ _)

/-- The start before a count is read as its phrases mean it, whatever stands behind the comma. -/
theorem exists_start_read {ps : List Phrase} {e : Expr} (readable : ∀ p ∈ ps, p.Readable settings)
    (he : Derives .whole (Phrase.allMeaning ps) e) (hname : name.kind = .call .mid)
    (hopener : opener.kind = .leftParen) {comma : Token} (hcomma : comma.kind = .comma) :
    ∃ n ds, ∀ {s : Stream} {x : Token} {xs : List Token} {f : Feed}, x.kind.function? = none →
      s.rawDepth = 0 →
      s.feed.Delivers settings.limits.maxStringLength
        (name :: opener :: (Phrase.allTokens ps ++ comma :: x :: xs)) f →
      ∃ s₀ start u : Stream, s.advance settings = (Advance.full settings).expand settings .mid s₀ ∧
        (Advance.full settings).rangeArgument settings 0
          ((Advance.full settings).consumeLeftParen (Advance.full settings s₀)).2 = (n, start) ∧
        ((Advance.full settings).consumeComma start).2 = u ∧
        u.current = x ∧ u.rawDepth = 0 ∧ u.log = s.log ++ ds ∧
        u.feed.Delivers settings.limits.maxStringLength xs f := by
  obtain ⟨y, ys, hmeaning, _⟩ := he.head
  obtain ⟨n, ds, hread⟩ := Advance.exists_rangeArgument settings 0 y.span e
  refine ⟨n, ds, ?_⟩
  intro s x xs f hx hraw hd
  obtain ⟨m, hd, hbehind⟩ := Feed.Delivers.exists_between
    (name :: opener :: (Phrase.allTokens ps ++ [comma])) (x :: xs) (by simpa using hd)
  cases hd with
  | @next _ _ g _ _ hn hd =>
    obtain ⟨_, ha⟩ := advance_of_call hraw hn hname
    have fol : Follows settings ⟨comma, m, s.log⟩ g.size := follows (by rw [hcomma]; rfl) _
    have hspells : Spells settings ⟨comma, m, s.log⟩ g
        (opener :: (Phrase.allMeaning ps ++ [comma])) := by
      refine ⟨.plain opener :: ps, ?_, hd, rfl⟩
      intro p hp
      rcases List.mem_cons.mp hp with rfl | hp
      · exact Or.inr ⟨opener, rfl, by rw [hopener]; rfl⟩
      · exact readable p hp
    have hshows := fol.opening (s := { s with feed := g, current := name }) hraw rfl
      (Nat.le_refl _) hspells hopener (by simp)
    have hfirst := hmeaning ▸ hshows
    obtain ⟨v, hv, hstop⟩ := exists_shown fol hshows
    have hk : v.kind = .comma := hstop.kind.trans hcomma
    have hexpr : ((Advance.full settings).expression _).read = (e, v) :=
      (Advance.comes_of_derives he hv).read (show v.kind.goesOn = false by rw [hk]; rfl)
    -- at the comma the feed holds what is behind it
    obtain ⟨hpushed, hscan⟩ := hstop.behind
    cases hbehind.of_same hpushed.symm hscan.symm with
    | @next _ _ g' _ _ hn hbehind =>
      refine ⟨_, _, _, ha, hread _ _ _ hexpr (by rw [Shows.current hfirst]),
        consume_of_next (s := { v with log := v.log ++ ds }) _ hk hn hx, ?_⟩
      exact ⟨rfl, hstop.rawDepth, by rw [hstop.log], hbehind⟩

/-- A call whose count is out of range behind some start. -/
theorem exists_lags_of_mid_count {ps : List Phrase} {e : Expr} {comma : Token}
    (readable : ∀ p ∈ ps, p.Readable settings) (he : Derives .whole (Phrase.allMeaning ps) e)
    (hsep : comma.kind = .comma) (hlimit : 1 ≤ settings.limits.argumentLimit)
    (hgiven : OutOfRange settings given place) (hx : x.IsNumber 1)
    (h : BothCall settings .mid name opener (Phrase.allTokens ps ++ comma :: given)
      (Phrase.allTokens ps ++ [comma, x]) rest s t) :
    ∃ before, Lags settings before { span := place, cause := .rangeError } (s.advance settings)
      (t.advance settings) := by
  obtain ⟨e', v, he', _⟩ := hgiven.value
  obtain ⟨y, ys, rfl, _⟩ := he'.head
  obtain ⟨n, ds, hstart⟩ := exists_start_read readable he h.calls h.opens hsep
  obtain ⟨s₀, start, u, has, hss, hus, rfl, hud, hul, huf⟩ :=
    hstart (he'.plain_of_mem y List.mem_cons_self).1 h.rawDepth h.given
  obtain ⟨t₀, start', w, hat, hst, hwt, rfl, hwd, hwl, hwf⟩ :=
    hstart (by rw [hx.1]; rfl) h.rawDepth' h.fallback
  obtain ⟨before, count, s', t', hs', ht', hlags⟩ := Lags.of_argument hgiven huf h.comma hx
    ⟨by decide, hlimit⟩ (show _ = 1 from rfl) hwf (.refl _ _) (by rw [hwd, hud])
    (by rw [hwl, hul, h.log])
  refine ⟨before, ?_⟩
  rw [has, hat, Advance.expand_mid, Advance.expand_mid]
  dsimp only
  rw [hss, hst, hus, hwt, hs', ht']
  exact hlags.windowed (Window.slice_sublist _ _)

/-- **One argument out of range** changes nothing but the log. -/
theorem exists_lags_of_standsFor (hfor : StandsFor settings fn given fallback place)
    (hlimit : 1 ≤ settings.limits.argumentLimit)
    (h : BothCall settings fn name opener given fallback rest s t) :
    ∃ before, Lags settings before { span := place, cause := .rangeError } (s.advance settings)
      (t.advance settings) := by
  cases hfor with
  | left hgiven hx =>
    exact exists_lags_of_count ((Advance.full settings).expand_left settings)
      (Window.slice_sublist 0) hlimit hgiven hx h
  | right hgiven hx =>
    exact exists_lags_of_count ((Advance.full settings).expand_right settings)
      Window.last_sublist hlimit hgiven hx h
  | start hgiven hx hbehind => exact exists_lags_of_start hlimit hgiven hx hbehind h
  | count readable he hsep hgiven hx =>
    exact exists_lags_of_mid_count readable he hsep hlimit hgiven hx h

end

namespace Stream

/-- **An argument out of range acts as the number that stands for it.** Two streams outside raw
mode are about to read a call, one as it is given and the other with each argument out of range
replaced: a count by one, a start by zero. Behind the last of these arguments stands a comma, and
anything behind that, the same on both sides. Then the two show the same tokens for ever, and
report the same, but for one range error for each argument replaced, at its first token. -/
theorem out_of_range_as_fallback (settings : Settings) (hlimit : 1 ≤ settings.limits.argumentLimit)
    {fn : TokenFunction} {given fallback : List Token} {places : List Span}
    (replaced : Replaced settings fn given fallback places) {name opener : Token}
    (hname : name.kind = .call fn) (hopener : opener.kind = .leftParen) {rest : Feed}
    (hcomma : (rest.next settings.limits.maxStringLength #[]).token.kind = .comma) {s t : Stream}
    (hraw : s.rawDepth = 0) (hraw' : t.rawDepth = 0) (hlog : t.log = s.log)
    (hs : s.feed.Delivers settings.limits.maxStringLength (name :: opener :: given) rest)
    (ht : t.feed.Delivers settings.limits.maxStringLength (name :: opener :: fallback) rest)
    (n : Nat) :
    let s' := (advance settings)^[n + 1] s
    let t' := (advance settings)^[n + 1] t
    t'.current = s'.current ∧
      Diagnostics.Adds (places.map fun place => { span := place, cause := .rangeError })
        t'.log s'.log := by
  induction replaced generalizing s with
  | none ts =>
    have hfeeds : FeedsAlike settings s t := ⟨⟨_, _, hs, ht⟩, hraw'.trans hraw.symm, hlog⟩
    have h := (FeedsAlike.lockstep settings).iterate Alike.toFeedsAlike n (Alike.advance hfeeds)
    exact ⟨h.current, h.log.symm⟩
  | @one given between fallback place places one more ih =>
    -- a stream that has only the first of the arguments replaced
    obtain ⟨before, hlags⟩ := exists_lags_of_standsFor one hlimit
      (t := { s with feed := rest.push (name :: opener :: between) })
      ⟨hname, hopener, hcomma, hs, Feed.Delivers.pushed _ rest (name :: opener :: between), hraw,
        hraw, rfl⟩
    obtain ⟨m, ⟨ds, hslog, hm⟩, ha⟩ := hlags.iterate n
    obtain ⟨hcurrent, hadds⟩ := ih
      (s := { s with feed := rest.push (name :: opener :: between) }) hraw hlog
      (Feed.Delivers.pushed _ rest _) ht
    refine ⟨hcurrent.trans (ha.current.trans ?_), before, ds, hslog, ?_⟩
    · rw [hm]
      rfl
    · have hmlog : m.log = before ++ ds := by rw [hm]
      rw [← hmlog, ← ha.log]
      exact hadds

/-- A start and a count that are out of range, with a list behind them. -/
theorem out_of_range_as_fallback_mid :
    let int (value : Int64) (column : Nat) : Token :=
      ⟨.int, some (.int value), ⟨1, column, column + 1⟩⟩
    let mark (kind : Kind) (column : Nat) : Token := ⟨kind, none, ⟨1, column, column + 1⟩⟩
    let name := mark (.call .mid) 1
    let opener := mark .leftParen 5
    let comma := mark .comma 7
    let count := [int 1 8, mark (.operator .minus) 9, int 2 10]
    let list := [mark .comma 11, mark .hash 12, mark .colon 13, mark .rightParen 14]
    let rest : Feed := ⟨[], ⟨list.map .ok, {}⟩⟩
    let s := ofScan ⟨(name :: opener :: int 200 6 :: comma :: count).map .ok ++ list.map .ok, {}⟩
    let t := ofScan ⟨[name, opener, int 0 6, comma, int 1 8].map .ok ++ list.map .ok, {}⟩
    Replaced {} .mid (int 200 6 :: comma :: count) [int 0 6, comma, int 1 8]
        [⟨1, 6, 7⟩, ⟨1, 8, 9⟩] ∧
      s.feed.Delivers 255 (name :: opener :: int 200 6 :: comma :: count) rest ∧
      t.feed.Delivers 255 [name, opener, int 0 6, comma, int 1 8] rest ∧
      (t.advance {}).current = (s.advance {}).current ∧
      Diagnostics.Adds [⟨⟨1, 6, 7⟩, .rangeError, none⟩, ⟨⟨1, 8, 9⟩, .rangeError, none⟩]
        (t.advance {}).log (s.advance {}).log := by
  intro int mark name opener comma count list rest s t
  have hstart : OutOfRange {} [int 200 6] ⟨1, 6, 7⟩ :=
    ⟨rfl, _, 200, .of_atom (.number rfl), rfl, by decide⟩
  have hone : Derives (.upTo 2) [int 1 8] (.number 1 ⟨1, 8, 9⟩) :=
    .mono (.tightest (.bare (.unsigned (.number rfl)))) (by decide)
  have htwo : Derives (.upTo 1) [int 2 10] (.number 2 ⟨1, 10, 11⟩) :=
    .mono (.tightest (.bare (.unsigned (.number rfl)))) (by decide)
  have hminus : Derives (.upTo 2) count
      (.binary .subtract (.number 1 ⟨1, 8, 9⟩) (.number 2 ⟨1, 10, 11⟩) ⟨1, 9, 10⟩) :=
    .left hone rfl (by decide) htwo
  have hcount : OutOfRange {} count ⟨1, 8, 9⟩ :=
    ⟨rfl, _, -1, .plain (hminus.mono (by decide)), rfl, by decide⟩
  have hfirst : StandsFor {} .mid ([int 200 6] ++ comma :: count) (int 0 6 :: comma :: count)
      ⟨1, 6, 7⟩ := .start hstart ⟨rfl, rfl⟩ (by simp [comma, mark])
  have hreadable : ∀ p ∈ [int 0 6].map Phrase.plain, p.Readable {} := fun p hp =>
    Phrase.readable_of_mem_plain (by decide) hp
  have hsecond : StandsFor {} .mid (Phrase.allTokens [.plain (int 0 6)] ++ comma :: count)
      (Phrase.allTokens [.plain (int 0 6)] ++ [comma, int 1 8]) ⟨1, 8, 9⟩ :=
    .count hreadable (.of_atom (.number rfl)) rfl hcount ⟨rfl, rfl⟩
  have hreplaced : Replaced {} .mid (int 200 6 :: comma :: count) [int 0 6, comma, int 1 8]
      [⟨1, 6, 7⟩, ⟨1, 8, 9⟩] := .one hfirst (.one hsecond (.none _))
  have hs : s.feed.Delivers 255 (name :: opener :: int 200 6 :: comma :: count) rest :=
    .scanned (by decide) (list.map .ok) {}
  have ht : t.feed.Delivers 255 [name, opener, int 0 6, comma, int 1 8] rest :=
    .scanned (by decide) (list.map .ok) {}
  have hrun := out_of_range_as_fallback {} (by decide) hreplaced rfl rfl rfl
    (s := s) (t := t) rfl rfl rfl hs ht 0
  rw [Nat.zero_add, Function.iterate_one] at hrun
  exact ⟨hreplaced, hs, ht, hrun⟩

end Stream

end AsmExpand
