import AsmExpand.Listing.Statement
import AsmExpand.Proofs.Delivery
import AsmExpand.Proofs.Phrase
import AsmExpand.Proofs.Session

/-!
# Nested calls are compositional

A stream that is about to read phrases shows what the phrases mean, whatever the
depth of their calls. `Shows e m s ts` says that the tokens that become current
from `s` on are `ts`, the last of them being the token behind the phrases. The
stream may still hold calls: what it has ahead are phrases that mean the rest of
`ts` (`Spells`).

The parentheses and commas of a call are plain phrases once its function token is
taken. So inside a call the stream is again at phrases, those of the argument
list, a parenthesis, and the phrases behind the call, and a token behind its
window is one of what these mean. Nothing has to be known about where a call
ends: `collect` stops at the parenthesis because the meaning before it is
balanced.

All readers need is that advancing goes from one token of the meaning to the next
(`Follows`). That is shown by induction on the size of the feed: each call takes
its function token, and what it pushes back it has read.
-/

namespace AsmExpand

/-! ## What a stream shows -/

/-- How a reading of phrases ends: with the token behind them, what the feed holds
behind that one, and the log. -/
structure Ending where
  stop : Token
  behind : Feed
  log : Diagnostics

/-- What a feed may hold: a proper phrase, or any token that calls nothing. The commas
and parentheses of a call that is being read are of the second sort, and so is what
was pushed back. -/
def Phrase.Readable (settings : Settings) (p : Phrase) : Prop :=
  p.Proper settings ∨ ∃ t, p = .plain t ∧ t.kind.function? = none

theorem Phrase.readable_of_mem_plain {settings : Settings} {ts : List Token}
    (h : ∀ t ∈ ts, t.kind.function? = none) {p : Phrase} (hp : p ∈ ts.map Phrase.plain) :
    p.Readable settings := by
  obtain ⟨t, ht, rfl⟩ := List.mem_map.mp hp
  exact Or.inr ⟨t, rfl, h t ht⟩

/-- The feed holds phrases that mean `ts`, but for the last token, which is the one
behind the phrases. -/
def Spells (settings : Settings) (e : Ending) (f : Feed) (ts : List Token) : Prop :=
  ∃ ps : List Phrase, (∀ p ∈ ps, p.Readable settings) ∧
    f.Delivers settings.limits.maxStringLength (Phrase.allTokens ps ++ [e.stop]) e.behind ∧
    ts = Phrase.allMeaning ps ++ [e.stop]

/-- The stream, of a load within `m`, is at the first of the tokens `ts`, and the rest
of them is ahead. -/
structure Shows (settings : Settings) (e : Ending) (m : Nat) (s : Stream) (ts : List Token) :
    Prop where
  rawDepth : s.rawDepth = 0
  log : s.log = e.log
  load : s.load ≤ m
  tokens : (s.kind.function? = none ∧ ∃ us, Spells settings e s.feed us ∧ ts = s.current :: us) ∨
    (s.current = e.stop ∧ s.feed.Delivers settings.limits.maxStringLength [] e.behind ∧
      ts = [e.stop])

/-- To advance goes from one token to the next, as long as the feed is within `m`. -/
def Follows (settings : Settings) (e : Ending) (m : Nat) : Prop :=
  ∀ (s : Stream) (ts : List Token), s.rawDepth = 0 → s.log = e.log → s.feed.size ≤ m →
    Spells settings e s.feed ts → Shows settings e m (s.advance settings) ts

namespace Shows

variable {settings : Settings} {e : Ending} {m : Nat} {s : Stream} {t u : Token}
  {ts xs : List Token}

theorem current (h : Shows settings e m s (t :: ts)) : s.current = t := by
  rcases h.tokens with ⟨_, us, _, he⟩ | ⟨hc, _, he⟩
  · exact (List.cons.inj he).1.symm
  · rw [hc, (List.cons.inj he).1]

theorem kind (h : Shows settings e m s (t :: ts)) : s.kind = t.kind := by
  rw [Stream.kind, h.current]

/-- What follows is ahead. -/
theorem spells (h : Shows settings e m s (t :: ts)) (hts : ts ≠ []) :
    Spells settings e s.feed ts := by
  rcases h.tokens with ⟨_, us, hs, he⟩ | ⟨_, _, he⟩
  · rwa [(List.cons.inj he).2]
  · exact absurd (List.cons.inj he).2 hts

/-- At the last token there is nothing more but what is behind. -/
theorem behind (h : Shows settings e m s [t]) :
    s.feed.pushed = e.behind.pushed ∧ s.feed.scan = e.behind.scan := by
  rcases h.tokens with ⟨_, us, ⟨ps, _, _, hus⟩, he⟩ | ⟨_, hd, _⟩
  · -- with phrases ahead there would be a second token
    rw [hus] at he
    simp at he
  · cases hd with
    | done hp hs => exact ⟨hp, hs⟩

/-- Tokens pushed back come first, and the current one again behind them. -/
theorem spells_push (h : Shows settings e m s ts) (hxs : ∀ x ∈ xs, x.kind.function? = none) :
    Spells settings e (s.push (xs ++ [s.current])).feed (xs ++ ts) := by
  rcases h.tokens with ⟨hk, us, ⟨ps, hps, hd, rfl⟩, rfl⟩ | ⟨hc, hd, rfl⟩
  · refine ⟨(xs ++ [s.current]).map .plain ++ ps, ?_, ?_, ?_⟩
    · intro p hp
      rcases List.mem_append.mp hp with hp | hp
      · refine Phrase.readable_of_mem_plain ?_ hp
        intro y hy
        rcases List.mem_append.mp hy with hy | hy
        · exact hxs y hy
        · rw [List.mem_singleton.mp hy]
          exact hk
      · exact hps p hp
    · rw [Phrase.allTokens_append, Phrase.allTokens_plain, List.append_assoc]
      exact hd.push _
    · rw [Phrase.allMeaning_append, Phrase.allMeaning_plain]
      simp
  · -- the current token is the one behind the phrases, and is so again
    refine ⟨xs.map .plain, fun p hp => Phrase.readable_of_mem_plain hxs hp, ?_, ?_⟩
    · rw [Phrase.allTokens_plain, hc]
      have := hd.push (xs ++ [e.stop])
      rwa [List.append_nil] at this
    · rw [Phrase.allMeaning_plain]

/-- The current parenthesis may be turned into a constant. -/
theorem relabel (h : Shows settings e m s (t :: ts)) (hk : t.kind = .rightParen) (hts : ts ≠ [])
    (value : String) :
    Shows settings e m { s with current := .ofText value s.current.span }
      (.ofText value t.span :: ts) := by
  refine ⟨h.rawDepth, h.log, ?_, Or.inl ⟨rfl, ts, h.spells hts, ?_⟩⟩
  · have hl := h.load
    rw [Stream.load, Token.live_of_kind_ne (by rw [h.current, hk]; simp)] at hl
    exact hl
  · rw [h.current]

/-- A call that makes a constant ends at its parenthesis. -/
theorem literalAtParen (h : Shows settings e m s (t :: ts)) (hk : t.kind = .rightParen)
    (value : String) : Advance.literalAtParen value s = (.literal value, s) := by
  unfold Advance.literalAtParen
  rw [h.kind]
  exact if_pos hk

variable (fol : Follows settings e m)
include fol

theorem advance (h : Shows settings e m s (t :: ts)) (hts : ts ≠ []) :
    Shows settings e m (Advance.full settings s) ts :=
  fol _ _ h.rawDepth h.log (Nat.le_trans s.size_le_load h.load) (h.spells hts)

theorem consume (h : Shows settings e m s (t :: ts)) (hts : ts ≠ []) (absent : Cause) :
    Shows settings e m ((Advance.full settings).consume t.kind absent s).2 ts := by
  unfold Advance.consume
  rw [if_pos h.kind]
  exact h.advance fol hts

/-- A number in front of a comma or a parenthesis is read as its value. -/
theorem constant {v : Int64} (h : Shows settings e m s (t :: u :: ts)) (hk : t.kind = .int)
    (hv : t.int? = some v) (hu : u.kind = .comma ∨ u.kind = .rightParen) :
    ∃ s', (Advance.full settings).constant settings.symbols s = (v, s') ∧
      Shows settings e m s' (u :: ts) := by
  have ha := h.advance fol (by simp)
  refine ⟨_, ?_, ha⟩
  apply Advance.constant_of_int
  · rw [h.kind, hk]
  · rw [h.current, hv]
  · rw [ha.kind]
    rcases hu with hu | hu
    · rw [hu]
      rfl
    · rw [hu]
      rfl
  · rw [ha.kind]
    rcases hu with hu | hu
    · simp [hu]
    · simp [hu]

/-- A count in range is read as itself, with the comma behind it. -/
theorem count {c : CountArgument} (h : Shows settings e m s (c.tokens ++ ts)) (hts : ts ≠ [])
    (hc : c.InRange settings) (fallback : Nat) :
    ∃ s', (Advance.full settings).rangeArgument settings fallback s = (c.count, s') ∧
      Shows settings e m ((Advance.full settings).consumeComma s').2 ts := by
  obtain ⟨s', hs, h'⟩ := h.constant fol rfl rfl (Or.inl rfl)
  refine ⟨s', ?_, h'.consume fol hts _⟩
  unfold Advance.rangeArgument
  rw [hs]
  exact if_pos hc

/-- A balanced list is collected up to the parenthesis behind it. -/
theorem collect {depth : Nat} (h : Shows settings e m s (xs ++ t :: ts)) (hts : ts ≠ [])
    (hxs : BalancedFrom depth xs) (inside : ∀ x ∈ xs, x.kind.isSeparator = false)
    (hk : t.kind = .rightParen) :
    ∃ s', (Advance.full settings).collect depth s = (xs, s') ∧ Shows settings e m s' ts := by
  induction xs generalizing depth s with
  | nil =>
    have hsk := h.kind
    rw [hk] at hsk
    rw [Advance.collect, dif_neg (by rw [hsk]; simp [Kind.isSeparator]),
      if_pos ⟨hsk, hxs.depth_eq_zero⟩]
    exact ⟨_, rfl, h.advance fol hts⟩
  | cons x xs ih =>
    have hx := inside x List.mem_cons_self
    have hsk := h.kind
    obtain ⟨s', hs, h'⟩ := ih (h.advance fol (by simp)) hxs.tail
      fun y hy => inside y (List.mem_cons_of_mem _ hy)
    refine ⟨s', ?_, h'⟩
    rw [Advance.collect, dif_neg (by rw [hsk, hx]; simp),
      if_neg (by rw [hsk]; exact hxs.not_closing), hsk, hs, h.current]

/-- String constants with commas between them are joined up to the parenthesis behind
them. -/
theorem join (h : Shows settings e m s (xs ++ t :: ts)) (hxs : CommaSeparated xs)
    (hk : t.kind = .rightParen) (value : String)
    (hfit : (value ++ joined xs).utf8ByteSize ≤ settings.limits.maxStringLength) :
    ∃ s', (Advance.full settings).join settings value s = (.literal (value ++ joined xs), s') ∧
      Shows settings e m s' (t :: ts) := by
  induction hxs generalizing value s with
  | @one x hx =>
    have h₁ := h.advance fol (by simp)
    rw [joined_one hx] at hfit ⊢
    refine ⟨_, ?_, h₁⟩
    rw [Advance.join, dif_neg (by rw [h.kind, hx]; simp), if_neg (by
      rw [h.current, ← String.utf8ByteSize_append]
      omega)]
    dsimp only
    rw [if_neg (by rw [h₁.kind, hk]; simp), h.current, h₁.literalAtParen hk]
  | @more x c xs hx hc hxs ih =>
    -- over the constant and over the comma, each to the next token of the meaning
    have h₁ := h.advance fol (by simp)
    have h₂ := h₁.advance fol (by simp)
    rw [joined_more hx hc, ← String.append_assoc] at hfit ⊢
    obtain ⟨s', hs, h'⟩ := ih h₂ (value ++ x.text) hfit
    refine ⟨s', ?_, h'⟩
    rw [Advance.join, dif_neg (by rw [h.kind, hx]; simp), if_neg (by
      rw [h.current, ← String.utf8ByteSize_append]
      rw [String.utf8ByteSize_append] at hfit
      omega)]
    dsimp only
    rw [if_pos (by rw [h₁.kind, hc]), h.current]
    exact hs

/-! ## Calls -/

/-- A window is resolved to what it selects of its list. -/
theorem resolve_window {w : Selection} (h : Shows settings e m s (w.tokens ++ (xs ++ t :: ts)))
    (hts : ts ≠ []) (hw : w.InRange settings) (hxs : BalancedFrom 0 xs)
    (inside : ∀ x ∈ xs, x.kind.isSeparator = false) (hk : t.kind = .rightParen) :
    ∃ s', (Advance.full settings).resolve settings w.function s = (.window (w.select xs), s') ∧
      Shows settings e m s' ts := by
  have hne : xs ++ t :: ts ≠ [] := by simp
  cases w with
  | left count =>
    obtain ⟨s₁, h1, h⟩ := h.count fol hne hw 1
    obtain ⟨s₂, h2, h⟩ := h.collect fol hts hxs inside hk
    refine ⟨s₂, ?_, h⟩
    simp only [Selection.function, Advance.resolve, h1, h2]
    rfl
  | mid start count =>
    rw [Selection.tokens, List.append_assoc] at h
    obtain ⟨s₁, h1, h⟩ := h.count fol (by simp) hw.1 0
    obtain ⟨s₂, h2, h⟩ := h.count fol hne hw.2 1
    obtain ⟨s₃, h3, h⟩ := h.collect fol hts hxs inside hk
    refine ⟨s₃, ?_, h⟩
    simp only [Selection.function, Advance.resolve, h1, h2, h3]
    rfl
  | right count =>
    obtain ⟨s₁, h1, h⟩ := h.count fol hne hw 1
    obtain ⟨s₂, h2, h⟩ := h.collect fol hts hxs inside hk
    refine ⟨s₂, ?_, h⟩
    simp only [Selection.function, Advance.resolve, h1, h2]
    rfl

theorem resolve_concat (h : Shows settings e m s (xs ++ t :: ts)) (hxs : CommaSeparated xs)
    (hk : t.kind = .rightParen)
    (hfit : (joined xs).utf8ByteSize ≤ settings.limits.maxStringLength) :
    ∃ s', (Advance.full settings).resolve settings .concat s = (.literal (joined xs), s') ∧
      Shows settings e m s' (t :: ts) := by
  have hj := h.join fol hxs hk "" (by rwa [String.empty_append])
  rwa [String.empty_append] at hj

/-- A name or a number is spelled out. -/
theorem resolve_string {argument : Spellable}
    (h : Shows settings e m s (argument.token :: t :: ts)) (hk : t.kind = .rightParen)
    (hfit : argument.spelling.utf8ByteSize ≤ settings.limits.maxStringLength) :
    ∃ s', (Advance.full settings).resolve settings .string s = (.literal argument.spelling, s') ∧
      Shows settings e m s' (t :: ts) := by
  have hread : ∃ s', (Advance.full settings).stringArgument settings s = (argument.spelling, s') ∧
      Shows settings e m s' (t :: ts) := by
    unfold Advance.stringArgument
    rw [h.kind]
    cases argument with
    | ident name place =>
      refine ⟨_, ?_, h.advance fol (by simp)⟩
      rw [h.current]
      rfl
    | number value place =>
      obtain ⟨s', hs, h'⟩ := h.constant fol rfl rfl (Or.inr hk)
      refine ⟨s', ?_, h'⟩
      rw [hs]
      rfl
  obtain ⟨s', hs, h'⟩ := hread
  refine ⟨s', ?_, h'⟩
  rw [Advance.resolve, hs]
  dsimp only
  rw [if_neg (Nat.not_lt.mpr hfit), h'.literalAtParen hk]

end Shows

namespace Advance

variable (a : Advance) {settings : Settings} {fn : TokenFunction} {s t : Stream}

theorem expand_of_literal {value : String}
    (h : a.resolve settings fn (a.consumeLeftParen (a s)).2 = (.literal value, t)) :
    a.expand settings fn s = { t with current := .ofText value t.current.span } := by
  simp only [expand, h]

theorem expand_of_window {ts : List Token}
    (h : a.resolve settings fn (a.consumeLeftParen (a s)).2 = (.window ts, t)) :
    a.expand settings fn s = a (t.push (ts ++ [t.current])) := by
  simp only [expand, h]

theorem expand_of_abandoned
    (h : a.resolve settings fn (a.consumeLeftParen (a s)).2 = (.abandoned, t)) :
    a.expand settings fn s = t := by
  simp only [expand, h]

end Advance

namespace Follows

variable {settings : Settings} {e : Ending} {m : Nat} {s : Stream} {t : Token}
  {ts xs us : List Token}

/-- A call is entered by its opening parenthesis. -/
theorem opening (fol : Follows settings e m) (hd : s.rawDepth = 0) (hl : s.log = e.log)
    (hm : s.feed.size ≤ m) (hs : Spells settings e s.feed (t :: ts)) (ht : t.kind = .leftParen)
    (hts : ts ≠ []) :
    Shows settings e m
      ((Advance.full settings).consumeLeftParen (Advance.full settings s)).2 ts := by
  have h := (fol _ _ hd hl hm hs).consume fol hts .leftParenExpected
  rwa [ht] at h

/-- A call that makes a window goes on with it, and then with what is behind the call. -/
theorem expand_window (fol : Follows settings e m) {fn : TokenFunction}
    (h : Shows settings e m
      ((Advance.full settings).consumeLeftParen (Advance.full settings s)).2 ts)
    (hxs : ∀ x ∈ xs, x.kind.function? = none) {s' : Stream}
    (hr : (Advance.full settings).resolve settings fn
      ((Advance.full settings).consumeLeftParen (Advance.full settings s)).2 = (.window xs, s'))
    (h' : Shows settings e m s' us) :
    Shows settings e m ((Advance.full settings).expand settings fn s) (xs ++ us) := by
  rw [(Advance.full settings).expand_of_window hr]
  refine fol _ _ h'.rawDepth h'.log ?_ (h'.spells_push hxs)
  -- what is pushed has been read before
  have hload := (Advance.full settings).load_resolve_le settings fn
    ((Advance.full settings).consumeLeftParen (Advance.full settings s)).2
  have hm := h.load
  rw [hr] at hload
  simp only [Advance.outcomeCount, Stream.load] at hload hm
  simp only [Stream.size_feed_push, liveCount_append, liveCount_cons, liveCount_nil]
  omega

end Follows

/-! ## Phrases -/

section

variable {settings : Settings} {e : Ending} {m : Nat} {s : Stream} {f g : Feed} {t : Token}

/-- Behind the function token of a call there are phrases again: its arguments, what
is inside it, its closing parenthesis, and what follows. -/
theorem spells_of_call (inner : List Phrase) {args : List Token} {ps : List Phrase}
    (hargs : ∀ x ∈ args, x.kind.function? = none) (hinner : Phrase.AllProper settings inner)
    (ht : t.kind = .rightParen) (hps : ∀ p ∈ ps, p.Readable settings)
    (hd : f.Delivers settings.limits.maxStringLength
      (args ++ (Phrase.allTokens inner ++ t :: (Phrase.allTokens ps ++ [e.stop]))) e.behind) :
    Spells settings e f
      (args ++ (Phrase.allMeaning inner ++ t :: (Phrase.allMeaning ps ++ [e.stop]))) := by
  refine ⟨args.map .plain ++ (inner ++ .plain t :: ps), ?_, ?_, ?_⟩
  · intro p hp
    rcases List.mem_append.mp hp with hp | hp
    · exact Phrase.readable_of_mem_plain hargs hp
    rcases List.mem_append.mp hp with hp | hp
    · exact Or.inl (hinner.proper settings hp)
    rcases List.mem_cons.mp hp with rfl | hp
    · exact Or.inr ⟨t, rfl, by rw [ht]; rfl⟩
    · exact hps p hp
  · rw [Phrase.allTokens_append, Phrase.allTokens_plain, Phrase.allTokens_append]
    simpa [Phrase.allTokens, Phrase.tokens] using hd
  · rw [Phrase.allMeaning_append, Phrase.allMeaning_plain, Phrase.allMeaning_append]
    simp [Phrase.allMeaning, Phrase.meaning]

/-- A token that calls nothing becomes current. -/
theorem advance_of_plain
    (hn : ∀ log, s.feed.next settings.limits.maxStringLength log = ⟨t, log, g⟩)
    (ht : t.kind.function? = none) :
    s.advance settings = { s with feed := g, current := t } := by
  have hf : s.fetch settings = { s with feed := g, current := t } := by
    rw [Stream.fetch, hn]
  rw [Stream.advance_of_call?_eq_none, hf]
  rw [hf]
  exact Stream.call?_of_function?_eq_none ht

/-- A function token is expanded. -/
theorem advance_of_call {fn : TokenFunction} (hd : s.rawDepth = 0)
    (hn : ∀ log, s.feed.next settings.limits.maxStringLength log = ⟨t, log, g⟩)
    (ht : t.kind = .call fn) :
    g.size < s.feed.size ∧ s.advance settings
      = (Advance.full settings).expand settings fn { s with feed := g, current := t } := by
  have hf : s.fetch settings = { s with feed := g, current := t } := by
    rw [Stream.fetch, hn]
  have hc : (s.fetch settings).call? = some fn := by
    rw [hf, Stream.call?, Stream.isRaw, hd, Stream.kind, ht]
    rfl
  have hlt := Advance.size_feed_lt_of_call? hc
  have ha := Advance.advance_eq settings s
  rw [hc, hf] at ha
  rw [hf] at hlt
  exact ⟨hlt, ha⟩

/-- A token that calls nothing is the next one shown. -/
theorem shows_of_plain (hd : s.rawDepth = 0) (hl : s.log = e.log) (hm : s.feed.size ≤ m)
    {ps : List Phrase} (hps : ∀ p ∈ ps, p.Readable settings) (ht : t.kind.function? = none)
    (h : s.feed.Delivers settings.limits.maxStringLength (t :: (Phrase.allTokens ps ++ [e.stop]))
      e.behind) :
    Shows settings e m (s.advance settings) (t :: (Phrase.allMeaning ps ++ [e.stop])) := by
  have hload := Nat.le_trans (s.load_advance_le settings) hm
  cases h with
  | next hn h =>
    rw [advance_of_plain hn ht] at hload ⊢
    exact ⟨hd, hl, hload, Or.inl ⟨ht, _, ⟨ps, hps, h, rfl⟩, rfl⟩⟩

/-- Taking the function token and the opening parenthesis of a call leads to what is
inside it. -/
theorem exists_opened (hd : s.rawDepth = 0) (hl : s.log = e.log)
    (smaller : ∀ n, n < s.feed.size → Follows settings e n) {places : CallPlaces}
    {fn : TokenFunction} (args : List Token) (hargs : ∀ x ∈ args, x.kind.function? = none)
    (inner : List Phrase) {ps : List Phrase} (hinner : Phrase.AllProper settings inner)
    (hps : ∀ p ∈ ps, p.Readable settings)
    (h : s.feed.Delivers settings.limits.maxStringLength
      (places.front fn ++
        (args ++ (Phrase.allTokens inner ++ places.close :: (Phrase.allTokens ps ++ [e.stop]))))
      e.behind) :
    ∃ n, n < s.feed.size ∧ Follows settings e n ∧ ∃ s₀ : Stream,
      s.advance settings = (Advance.full settings).expand settings fn s₀ ∧
      Shows settings e n ((Advance.full settings).consumeLeftParen (Advance.full settings s₀)).2
        (args ++ (Phrase.allMeaning inner ++
          places.close :: (Phrase.allMeaning ps ++ [e.stop]))) := by
  have hopener : ∀ x ∈ places.opener :: args, x.kind.function? = none := by
    intro x hx
    rcases List.mem_cons.mp hx with rfl | hx
    · rfl
    · exact hargs x hx
  cases h with
  | next hn h =>
    rename_i g
    obtain ⟨hlt, ha⟩ := advance_of_call hd hn rfl
    have fol := smaller g.size hlt
    have hs : Spells settings e g _ := spells_of_call inner hopener hinner rfl hps h
    exact ⟨g.size, hlt, fol, _, ha, fol.opening hd hl (Nat.le_refl _) hs rfl (by simp)⟩

/-- **A call shows what it means**, and then what is behind it, if advancing follows
the meaning on smaller feeds. -/
theorem shows_of_call (hd : s.rawDepth = 0) (hl : s.log = e.log)
    (smaller : ∀ n, n < s.feed.size → Follows settings e n) {p : Phrase} (hp : p.Proper settings)
    (hcall : ∀ t, p ≠ .plain t) {ps : List Phrase} (hps : ∀ p ∈ ps, p.Readable settings)
    (h : s.feed.Delivers settings.limits.maxStringLength
      (p.tokens ++ (Phrase.allTokens ps ++ [e.stop])) e.behind) :
    ∃ n, n < s.feed.size ∧
      Shows settings e n (s.advance settings)
        (p.meaning ++ (Phrase.allMeaning ps ++ [e.stop])) := by
  have hne : Phrase.allMeaning ps ++ [e.stop] ≠ [] := by simp
  cases p with
  | plain t => exact absurd rfl (hcall t)
  | window places w inner =>
    obtain ⟨hw, hinner, hbalanced⟩ := hp
    have inside := fun x => Phrase.AllProper.inside settings hinner (t := x)
    rw [Phrase.tokens, List.append_assoc, List.append_assoc, List.append_assoc] at h
    obtain ⟨n, hlt, fol, s₀, ha, hs⟩ := exists_opened hd hl smaller w.tokens
      (fun x hx => Selection.function?_of_mem_tokens hx) inner hinner hps h
    obtain ⟨s', hr, h'⟩ :=
      hs.resolve_window fol hne hw hbalanced (fun x hx => (inside x hx).2) rfl
    refine ⟨n, hlt, ?_⟩
    rw [ha]
    -- the window comes back as plain tokens, with what is behind the call
    exact fol.expand_window hs (fun x hx => (inside x ((w.select_sublist _).subset hx)).1) hr h'
  | concat places inner =>
    obtain ⟨hinner, hsep, hfit⟩ := hp
    rw [Phrase.tokens, List.append_assoc, List.append_assoc] at h
    obtain ⟨n, hlt, fol, s₀, ha, hs⟩ :=
      exists_opened hd hl smaller [] (by simp) inner hinner hps h
    obtain ⟨s', hr, h'⟩ := hs.resolve_concat fol hsep rfl hfit
    refine ⟨n, hlt, ?_⟩
    rw [ha, (Advance.full settings).expand_of_literal hr]
    exact h'.relabel rfl hne _
  | string places argument =>
    have hargument : ∀ x ∈ [argument.token], x.kind.function? = none := by
      intro x hx
      rw [List.mem_singleton.mp hx]
      exact argument.function?_token
    rw [Phrase.tokens, List.append_assoc, List.append_assoc] at h
    obtain ⟨n, hlt, fol, s₀, ha, hs⟩ :=
      exists_opened hd hl smaller [argument.token] hargument [] trivial hps h
    obtain ⟨s', hr, h'⟩ := hs.resolve_string fol rfl hp
    refine ⟨n, hlt, ?_⟩
    rw [ha, (Advance.full settings).expand_of_literal hr]
    exact h'.relabel rfl hne _

/-- **To advance goes from one token of the meaning to the next.** -/
theorem follows (stop : e.stop.kind.function? = none) (m : Nat) : Follows settings e m := by
  induction m using Nat.strongRecOn with
  | ind m ih =>
    intro s ts hd hl hm hs
    have smaller : ∀ n, n < s.feed.size → Follows settings e n := fun n hn => ih n (by omega)
    obtain ⟨ps, hps, h, rfl⟩ := hs
    have hload := Nat.le_trans (s.load_advance_le settings) hm
    cases ps with
    | nil =>
      -- only the token behind the phrases is left
      cases h with
      | next hn h =>
        rw [advance_of_plain hn stop] at hload ⊢
        exact ⟨hd, hl, hload, Or.inr ⟨rfl, h, rfl⟩⟩
    | cons p ps =>
      have hrest := fun q hq => hps q (List.mem_cons_of_mem p hq)
      rw [Phrase.allTokens, List.append_assoc] at h
      rw [Phrase.allMeaning, List.append_assoc]
      by_cases hplain : ∃ t, p = .plain t
      · obtain ⟨t, rfl⟩ := hplain
        have ht : t.kind.function? = none := by
          rcases hps _ List.mem_cons_self with hp | ⟨t', he, ht⟩
          · exact hp.1
          · cases he
            exact ht
        exact shows_of_plain hd hl hm hrest ht h
      · have hp : p.Proper settings := by
          rcases hps p List.mem_cons_self with hp | ⟨t, he, _⟩
          · exact hp
          · exact absurd ⟨t, he⟩ hplain
        -- what is left of the feed is smaller, but `m` will do as a bound
        obtain ⟨n, hlt, hshows⟩ := shows_of_call hd hl smaller hp
          (fun t he => hplain ⟨t, he⟩) hrest h
        exact ⟨hshows.rawDepth, hshows.log, hload, hshows.tokens⟩

end

namespace Stream

variable {settings : Settings}

end Stream

end AsmExpand
