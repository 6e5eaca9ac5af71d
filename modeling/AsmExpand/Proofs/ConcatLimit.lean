import AsmExpand.Proofs.Composition
import AsmExpand.Proofs.EarlierReports
import AsmExpand.Proofs.Grammar

/-!
# Joined constants that are too long

`.CONCAT` gives up at the first constant with which the whole would be too long, and the rest of
the line is skipped. What is skipped is what would have been read without the call: the way to the
end of the line is the same, and so is all that is reported on it. So the call adds one report of
its own, at that constant, to what reading its tokens one by one would report
(`Stream.concat_within_limit`).

The constants are measured as the feed delivers them. One that is too long by itself was cut
before the call sees it, and reported by the feed; then the call can end well with what was left
of it.
-/

namespace AsmExpand

namespace Stream

variable (settings : Settings)

/-! ## The end of the line -/

/-- The first separator of some tokens, and what is behind it. -/
def fromSeparator (ts : List Token) : List Token := ts.dropWhile fun t => !t.kind.isSeparator

theorem fromSeparator_cons {t : Token} (h : t.kind.isSeparator = false) (ts : List Token) :
    fromSeparator (t :: ts) = fromSeparator ts :=
  List.dropWhile_cons_of_pos (by rw [h]; rfl)

theorem fromSeparator_append {ts : List Token} (h : ∀ t ∈ ts, t.kind.isSeparator = false)
    (us : List Token) : fromSeparator (ts ++ us) = fromSeparator us :=
  List.dropWhile_append_of_pos fun t ht => by rw [h t ht]; rfl

/-- At a token inside a line the end of the line is ahead. -/
theorem fromSeparator_remaining {s : Stream} (h : s.kind.isSeparator = false) :
    fromSeparator (s.remaining settings) = fromSeparator (s.ahead settings) := by
  rw [remaining_of_not_isSeparator settings h, fromSeparator_cons h]

/-- At a separator nothing is left of the line. -/
theorem fromSeparator_of_isSeparator {s : Stream} (h : s.kind.isSeparator = true) :
    fromSeparator (s.remaining settings) = s.remaining settings := by
  unfold remaining
  split
  · rfl
  · exact List.dropWhile_cons_of_neg (by simp [show s.current.kind.isSeparator = true from h])

/-- **Whatever is expanded, the line ends where it did.** -/
theorem fromSeparator_upkeep (ts : List Token) :
    Upkeep settings (fun s => fromSeparator (s.ahead settings) = ts)
      (fun s => fromSeparator (s.remaining settings) = ts) where
  take := by
    intro s h _
    rwa [remaining_fetch]
  call := by
    intro s fn h hc
    have hk : (s.fetch settings).kind.isSeparator = false := by
      rw [kind_of_call? hc]
      rfl
    rwa [← fromSeparator_remaining settings hk, remaining_fetch]
  ahead := fun h hk => by rwa [← fromSeparator_remaining settings hk]
  report := fun h _ _ _ => h
  literal := by
    intro s h hk value _
    rw [fromSeparator_remaining settings (by rw [hk]; rfl)] at h
    rwa [fromSeparator_remaining settings rfl]
  window := by
    intro s h ts hts
    have hinside : ∀ t ∈ ts, t.kind.isSeparator = false := by
      intro t ht
      obtain ⟨u, _, rfl, hu⟩ := hts t ht
      exact hu
    rwa [ahead_push_current settings hinside, fromSeparator_append hinside]

/-! ## Tokens ahead that call nothing -/

/-- What is ahead is fetched. -/
theorem fetch_of_ahead {s : Stream} {x : Token} {xs : List Token} (h : s.ahead settings = x :: xs) :
    (s.fetch settings).current = x ∧ (s.fetch settings).ahead settings = xs := by
  rw [← remaining_fetch] at h
  have hk : (s.fetch settings).kind ≠ .eof := by
    intro he
    rw [remaining, if_pos he] at h
    cases h
  rw [remaining_of_ne settings hk] at h
  exact List.cons.inj h

/-- Tokens that call nothing are shown one by one. -/
theorem exists_shows_of_ahead {xs rest : List Token} {y : Token} {s : Stream}
    (h : s.ahead settings = xs ++ y :: rest) (hp : ∀ x ∈ xs ++ [y], x.kind.function? = none) :
    ∃ t, (Advance.full settings).Shows s (s.current :: xs) t ∧ t.current = y ∧
      t.ahead settings = rest := by
  induction xs generalizing s with
  | nil =>
    obtain ⟨rfl, hahead⟩ := fetch_of_ahead settings h
    have hadvance := advance_of_passing settings (s := s) (Or.inr (hp _ List.mem_cons_self))
    exact ⟨s.advance settings, .step (.here _), by rw [hadvance], by rwa [hadvance]⟩
  | cons x xs ih =>
    obtain ⟨rfl, hahead⟩ := fetch_of_ahead settings h
    have hadvance := advance_of_passing settings (s := s) (Or.inr (hp _ List.mem_cons_self))
    obtain ⟨t, hshows, ht⟩ := ih hahead fun z hz => hp z (List.mem_cons_of_mem _ hz)
    exact ⟨t, .step (by rwa [show Advance.full settings s = _ from hadvance]), ht⟩

/-- The way to a stream adds to the log. -/
theorem exists_log_of_shows {ts : List Token} {s t : Stream}
    (h : (Advance.full settings).Shows s ts t) : ∃ ds, t.log = s.log ++ ds := by
  induction h with
  | here => exact ⟨#[], Array.append_empty.symm⟩
  | @step s t ts _ ih =>
    obtain ⟨ds, hds⟩ := exists_log_advance settings s
    obtain ⟨more, hmore⟩ := ih
    refine ⟨ds ++ more, ?_⟩
    rw [hmore, show (Advance.full settings s).log = _ from hds, Array.append_assoc]

end Stream

/-! ## Joining -/

namespace Advance

variable {a : Advance}

/-- Skipping passes what is shown inside a line. -/
theorem skipToSeparator_of_shows {s t : Stream} {ts : List Token} (h : a.Shows s ts t)
    (hts : ∀ x ∈ ts, x.kind.isSeparator = false) : a.skipToSeparator s = a.skipToSeparator t := by
  induction h with
  | here => rfl
  | @step s t ts h ih =>
    have hk : s.kind.isSeparator = false := hts _ List.mem_cons_self
    rw [skipToSeparator, dif_neg (by rw [hk]; exact Bool.false_ne_true),
      ih fun x hx => hts x (List.mem_cons_of_mem _ hx)]

/-- A constant with which the whole is too long ends the call. -/
theorem join_of_long {settings : Settings} {value : String} {s : Stream} (hk : s.kind = .text)
    (hlong : settings.limits.maxStringLength < (value ++ s.current.text).utf8ByteSize) :
    a.join settings value s = a.abandon .stringTooLong s := by
  rw [String.utf8ByteSize_append] at hlong
  rw [join, dif_neg (not_not.mpr hk), if_pos hlong]

/-- A constant that fits is joined to what is there, and another one if a comma follows. -/
theorem join_of_fits {settings : Settings} {value : String} {s : Stream} (hk : s.kind = .text)
    (hfits : (value ++ s.current.text).utf8ByteSize ≤ settings.limits.maxStringLength) :
    a.join settings value s =
      if (a s).kind = .comma then a.join settings (value ++ s.current.text) (a (a s))
      else literalAtParen (value ++ s.current.text) (a s) := by
  rw [String.utf8ByteSize_append] at hfits
  rw [join, dif_neg (not_not.mpr hk), if_neg (Nat.not_lt.mpr hfits)]

/-- The join of what `s` comes to gives up at `x`, the first constant with which the whole is too
long. Before it `pre` is shown, and `u` is the stream there. -/
structure GivesUp (a : Advance) (settings : Settings) (value : String) (s : Stream)
    (pre : List Token) (x : Token) (u : Stream) : Prop where
  text : x.kind = .text
  fits : (value ++ joined pre).utf8ByteSize ≤ settings.limits.maxStringLength
  long : settings.limits.maxStringLength < (value ++ joined (pre ++ [x])).utf8ByteSize
  shows : a.Shows s pre u
  current : u.current = x
  join : a.join settings value s = a.abandon .stringTooLong u

namespace GivesUp

variable {settings : Settings} {value : String} {s u : Stream} {pre : List Token} {x : Token}

/-- At the current constant. -/
theorem here (hk : s.kind = .text)
    (hvalue : value.utf8ByteSize ≤ settings.limits.maxStringLength)
    (hlong : settings.limits.maxStringLength < (value ++ s.current.text).utf8ByteSize) :
    a.GivesUp settings value s [] s.current s where
  text := hk
  fits := by rwa [show joined [] = "" from rfl, String.append_empty]
  long := by rwa [List.nil_append, joined_one hk]
  shows := .here s
  current := rfl
  join := join_of_long hk hlong

/-- At one behind the current constant, which fits, and a comma. -/
theorem behind (hk : s.kind = .text) (hcomma : (a s).kind = .comma)
    (hfits : (value ++ s.current.text).utf8ByteSize ≤ settings.limits.maxStringLength)
    (h : a.GivesUp settings (value ++ s.current.text) (a (a s)) pre x u) :
    a.GivesUp settings value s (s.current :: (a s).current :: pre) x u where
  text := h.text
  fits := by
    rw [joined_more hk hcomma, ← String.append_assoc]
    exact h.fits
  long := by
    rw [List.cons_append, List.cons_append, joined_more hk hcomma, ← String.append_assoc]
    exact h.long
  shows := .step (.step h.shows)
  current := h.current
  join := by rw [join_of_fits hk hfits, if_pos hcomma, h.join]

end GivesUp

/-- **Constants are joined while they fit.** The join ends behind the last of them, or gives up at
the first one with which the whole is too long. -/
theorem join_of_shows (settings : Settings) {xs : List Token} (hxs : CommaSeparated xs) :
    ∀ {value : String} {s t : Stream}, value.utf8ByteSize ≤ settings.limits.maxStringLength →
      a.Shows s xs t → t.kind = .rightParen →
      (value ++ joined xs).utf8ByteSize ≤ settings.limits.maxStringLength ∧
          a.join settings value s = (.literal (value ++ joined xs), t) ∨
        ∃ pre x post u, xs = pre ++ x :: post ∧ a.GivesUp settings value s pre x u := by
  induction hxs with
  | @one x hx =>
    intro value s t hvalue hs ht
    obtain ⟨rfl, h₁⟩ := Shows.cons_iff.mp hs
    obtain rfl := Shows.nil_iff.mp h₁
    rcases Nat.lt_or_ge settings.limits.maxStringLength (value ++ s.current.text).utf8ByteSize with
      hlong | hfits
    · exact Or.inr ⟨[], s.current, [], s, rfl, .here hx hvalue hlong⟩
    · refine Or.inl ⟨by rwa [joined_one hx], ?_⟩
      rw [join_of_fits hx hfits, if_neg (by rw [ht]; decide), literalAtParen, if_pos ht,
        joined_one hx]
  | @more x comma xs hx hcomma hxs ih =>
    intro value s t hvalue hs ht
    obtain ⟨rfl, h₁⟩ := Shows.cons_iff.mp hs
    obtain ⟨rfl, h₂⟩ := Shows.cons_iff.mp h₁
    rcases Nat.lt_or_ge settings.limits.maxStringLength (value ++ s.current.text).utf8ByteSize with
      hlong | hfits
    · exact Or.inr ⟨[], s.current, _, s, rfl, .here hx hvalue hlong⟩
    · rcases ih hfits h₂ ht with ⟨hall, hjoin⟩ | ⟨pre, y, post, u, rfl, h⟩
      · refine Or.inl ⟨by rwa [joined_more hx hcomma, ← String.append_assoc], ?_⟩
        rw [join_of_fits hx hfits, if_pos (show (a s).kind = .comma from hcomma), hjoin,
          joined_more hx hcomma, String.append_assoc]
      · exact Or.inr ⟨_, y, post, u, rfl, h.behind hx hcomma hfits⟩

end Advance

/-! ## The call -/

namespace Stream

variable {settings : Settings}

/-- What is given up inside a line is skipped as if nothing had been reported there. -/
theorem exists_skipped {s t : Stream} {ts : List Token} (h : (Advance.full settings).Shows s ts t)
    (hts : ∀ x ∈ ts, x.kind.isSeparator = false) (cause : Cause) :
    let skipped := (Advance.full settings).skipToSeparator s
    ∃ before after, skipped.log = s.log ++ before ++ after ∧
      (Advance.full settings).skipToSeparator (t.report cause) =
        { skipped with
          log := (s.log ++ before).push { span := t.current.span, cause := cause } ++ after } := by
  intro skipped
  obtain ⟨before, hbefore⟩ := exists_log_of_shows settings h
  have hskipped : skipped = (Advance.full settings).skipToSeparator t :=
    Advance.skipToSeparator_of_shows h hts
  obtain ⟨after, hafter, hsame⟩ := (Relogged.lockstep settings _ _).simulation.skipToSeparator
    (Relogged.start (t.report cause) t.log)
  have hsame : skipped = _ := hskipped.trans hsame
  refine ⟨before, after, by rw [hsame, hbefore], ?_⟩
  rw [hsame, ← hbefore]
  dsimp only
  rw [show (t.log.push { span := t.current.span, cause := cause }) ++ after = _ from hafter.symm]

/-- Outside raw mode a call of `.CONCAT` is ahead, with string constants and commas for its
arguments. They are as the feed delivers them, faults between them left out. -/
structure AtConcat (settings : Settings) (s : Stream) (name opener : Token) (args : List Token)
    (close : Token) (rest : List Token) : Prop where
  depth : s.rawDepth = 0
  calls : name.kind = .call .concat
  opens : opener.kind = .leftParen
  separated : CommaSeparated args
  closes : close.kind = .rightParen
  ahead : s.ahead settings = name :: opener :: (args ++ close :: rest)

namespace AtConcat

variable {s : Stream} {name opener close : Token} {args rest : List Token}

/-- Behind its function token there is no other call, and no end of the line. -/
theorem plain (h : AtConcat settings s name opener args close rest) :
    ∀ x ∈ opener :: (args ++ [close]), x.kind.function? = none ∧ x.kind.isSeparator = false := by
  simp only [List.forall_mem_cons, List.forall_mem_append]
  refine ⟨by rw [h.opens]; exact ⟨rfl, rfl⟩, fun x hx => ?_, by rw [h.closes]; exact ⟨rfl, rfl⟩,
    by simp⟩
  rcases h.separated.kind_of_mem x hx with hx | hx
  · rw [hx]
    exact ⟨rfl, rfl⟩
  · rw [hx]
    exact ⟨rfl, rfl⟩

theorem inside (h : AtConcat settings s name opener args close rest) :
    ∀ x ∈ name :: opener :: (args ++ [close]), x.kind.isSeparator = false :=
  List.forall_mem_cons.mpr ⟨by rw [h.calls]; rfl, fun x hx => (h.plain x hx).2⟩

/-- The call is on the line that ends behind it. -/
theorem fromSeparator_fetch (h : AtConcat settings s name opener args close rest) :
    fromSeparator ((s.fetch settings).remaining settings) = fromSeparator rest := by
  rw [remaining_fetch, h.ahead, List.append_cons]
  exact fromSeparator_append h.inside rest

/-- The function token is fetched, and the others are shown one by one. -/
theorem exists_way (h : AtConcat settings s name opener args close rest) :
    ∃ u, (Advance.full settings).Shows (s.fetch settings) (name :: opener :: args) u ∧
      u.current = close ∧ u.ahead settings = rest := by
  obtain ⟨rfl, hbehind⟩ := fetch_of_ahead settings h.ahead
  have hlist : (s.fetch settings).ahead settings = (opener :: args) ++ close :: rest := hbehind
  exact exists_shows_of_ahead settings hlist fun x hx => (h.plain x hx).1

/-- The call is what becomes of joining its arguments. -/
theorem advance_eq (h : AtConcat settings s name opener args close rest) :
    let u := Advance.full settings (Advance.full settings (s.fetch settings))
    (∀ {value : String} {v : Stream},
      (Advance.full settings).join settings "" u = (.literal value, v) →
        s.advance settings = { v with current := .ofText value v.current.span }) ∧
    ∀ v, (Advance.full settings).join settings "" u = (.abandoned, v) → s.advance settings = v := by
  intro u
  obtain ⟨w, hway, _⟩ := h.exists_way
  obtain ⟨hname, h₁⟩ := Advance.Shows.cons_iff.mp hway
  obtain ⟨hopener, _⟩ := Advance.Shows.cons_iff.mp h₁
  have hcall : (s.fetch settings).call? = some .concat := by
    rw [call?, isRaw, show (s.fetch settings).rawDepth = 0 from h.depth, kind, hname, h.calls]
    rfl
  have hentered : ((Advance.full settings).consumeLeftParen
      (Advance.full settings (s.fetch settings))).2 = u := by
    rw [Advance.consumeLeftParen, Advance.consume, if_pos (by rw [kind, hopener, h.opens])]
  have hadvance := Advance.advance_eq settings s
  rw [hcall] at hadvance
  change s.advance settings = _ at hadvance
  rw [hadvance]
  constructor
  · intro value v hjoin
    exact Advance.expand_of_literal _ (by rw [hentered]; exact hjoin)
  · intro v hjoin
    exact Advance.expand_of_abandoned _ (by rw [hentered]; exact hjoin)

end AtConcat

/-- **A call that joins constants respects the limit.** If together the constants are too long,
the separator that ends the line is current, as if the tokens up to it had been skipped one by one,
and all that is reported besides is one long string, at the first constant with which the limit is
exceeded. Otherwise the closing parenthesis becomes the joined constant, and nothing is reported
but what comes up on the way to it. -/
theorem concat_within_limit (settings : Settings) {s : Stream} {name opener close : Token}
    {args rest : List Token} (call : AtConcat settings s name opener args close rest) :
    let limit := settings.limits.maxStringLength
    let t := s.advance settings
    let skipped := (Advance.full settings).skipToSeparator (s.fetch settings)
    (limit < (joined args).utf8ByteSize →
      t.kind.isSeparator = true ∧ t.remaining settings = fromSeparator rest ∧
      ∃ pre x post before after, args = pre ++ x :: post ∧ x.kind = .text ∧
        (joined pre).utf8ByteSize ≤ limit ∧ limit < (joined (pre ++ [x])).utf8ByteSize ∧
        skipped.log = s.log ++ before ++ after ∧
        t = { skipped with
          log := (s.log ++ before).push { span := x.span, cause := .stringTooLong } ++ after }) ∧
    ((joined args).utf8ByteSize ≤ limit →
      t.ahead settings = rest ∧
      ∃ u, (Advance.full settings).Shows (s.fetch settings) (name :: opener :: args) u ∧
        u.current = close ∧ t = { u with current := .ofText (joined args) close.span }) := by
  intro limit t skipped
  obtain ⟨u, hway, hu, hrest⟩ := call.exists_way
  obtain ⟨hname, h₁⟩ := Advance.Shows.cons_iff.mp hway
  obtain ⟨hopener, h₂⟩ := Advance.Shows.cons_iff.mp h₁
  have hends := Advance.join_of_shows settings call.separated
    (show ("" : String).utf8ByteSize ≤ _ from Nat.zero_le _) h₂ (by rw [kind, hu, call.closes])
  rcases hends with ⟨hfits, hjoin⟩ | ⟨pre, x, post, w, hargs, hup⟩
  · rw [String.empty_append] at hfits hjoin
    refine ⟨fun h => absurd h (Nat.not_lt.mpr hfits), fun _ => ?_⟩
    rw [show t = _ from call.advance_eq.1 hjoin]
    exact ⟨hrest, u, hway, hu, by rw [hu]⟩
  · obtain ⟨hx, hpre, hlong, h₃, rfl, hjoin⟩ := hup
    rw [String.empty_append] at hpre hlong
    have hover : limit < (joined args).utf8ByteSize := by
      rw [hargs, List.append_cons, joined_append, String.utf8ByteSize_append]
      omega
    refine ⟨fun _ => ?_, fun h => absurd h (Nat.not_le.mpr hover)⟩
    have hpast : ∀ x ∈ name :: opener :: pre, x.kind.isSeparator = false := fun x hx =>
      call.inside x (List.Sublist.subset (by simp [hargs]) hx)
    obtain ⟨fetched, hfetched⟩ := exists_log_fetch settings s
    obtain ⟨before, after, hlog, hskipped⟩ := exists_skipped
      (Advance.Shows.cons_iff.mpr ⟨hname, Advance.Shows.cons_iff.mpr ⟨hopener, h₃⟩⟩) hpast
      .stringTooLong
    have hlogs : (s.fetch settings).log ++ before = s.log ++ (fetched ++ before) := by
      rw [hfetched, Array.append_assoc]
    rw [hlogs] at hlog hskipped
    have hremaining : skipped.remaining settings = fromSeparator rest := by
      rw [← fromSeparator_of_isSeparator settings (Advance.isSeparator_skipToSeparator _ _)]
      exact (fromSeparator_upkeep settings _).invariant.skipToSeparator call.fromSeparator_fetch
    rw [show t = _ from call.advance_eq.2 _ hjoin, hskipped]
    exact ⟨Advance.isSeparator_skipToSeparator _ _, hremaining, pre, w.current, post,
      fetched ++ before, after, hargs, hx, hpre, hlong, hlog, rfl⟩

/-- The second constant is one too many, and another call and a long string follow on the line. -/
theorem concat_within_limit_second :
    let settings : Settings := { limits := { maxStringLength := 4 } }
    let s := ofSource ".concat(\"ab\",\"cde\",\"f\") .left(1, x y) \"ghijk\"\nz"
    let text (value : String) (start stop : Nat) : Token := .ofText value ⟨1, start, stop⟩
    let mark (kind : Kind) (column : Nat) : Token := ⟨kind, none, ⟨1, column, column + 1⟩⟩
    let args := [text "ab" 9 13, mark .comma 13, text "cde" 14 19, mark .comma 19, text "f" 20 23]
    let rest := (s.ahead settings).drop 8
    AtConcat settings s ⟨.call .concat, none, ⟨1, 1, 8⟩⟩ (mark .leftParen 8) args
        (mark .rightParen 23) rest ∧
      4 < (joined args).utf8ByteSize ∧ (s.advance settings).kind.isSeparator = true ∧
      (s.advance settings).remaining settings = fromSeparator rest ∧
      (s.advance settings).log = #[⟨⟨1, 14, 19⟩, .stringTooLong, none⟩,
        ⟨⟨1, 39, 46⟩, .stringTooLong, none⟩] := by
  intro settings s text mark args rest
  have call : AtConcat settings s ⟨.call .concat, none, ⟨1, 1, 8⟩⟩ (mark .leftParen 8) args
      (mark .rightParen 23) rest :=
    ⟨rfl, rfl, rfl, .more rfl rfl (.more rfl rfl (.one rfl)), rfl, by decide +kernel⟩
  have hlong : 4 < (joined args).utf8ByteSize := by decide +kernel
  obtain ⟨hseparator, hremaining, _⟩ := (concat_within_limit settings call).1 hlong
  exact ⟨call, hlong, hseparator, hremaining, by decide +kernel⟩

/-- A constant that is too long by itself is cut by the feed, and what is left of it is joined. -/
theorem concat_joins_what_is_cut :
    let settings : Settings := { limits := { maxStringLength := 4 } }
    let s := ofSource ".concat(\"abcde\") x\nnext"
    let t := s.advance settings
    s.feed.scan.items.take 4 =
        [.ok ⟨.call .concat, none, ⟨1, 1, 8⟩⟩, .ok ⟨.leftParen, none, ⟨1, 8, 9⟩⟩,
          .ok (.ofText "abcde" ⟨1, 9, 16⟩), .ok ⟨.rightParen, none, ⟨1, 16, 17⟩⟩] ∧
      s.rawDepth = 0 ∧ settings.limits.maxStringLength < "abcde".utf8ByteSize ∧
      ¬(t.kind.isSeparator = true) ∧ t.current = .ofText "abcd" ⟨1, 16, 17⟩ ∧
      t.log = #[⟨⟨1, 9, 16⟩, .stringTooLong, none⟩] := by
  refine ⟨?_, rfl, ?_, ?_, ?_, ?_⟩
  all_goals decide +kernel

end Stream

end AsmExpand
