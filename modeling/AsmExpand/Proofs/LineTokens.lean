import AsmExpand.Proofs.LineEnds
import AsmExpand.Proofs.ReadBack
import AsmExpand.Proofs.Scanning

/-!
# What lines hold

Every token that is listed was scanned inside a line or is a constant that a call has
made. So the scanner can read it back, and no string constant is longer than the limit:
scanned ones are cut to it, and a call that would make a longer one is abandoned
(`Token.Sound`).

That holds of a stream as a whole, of its current token and of all that its feed has to
deliver (`Stream.Ready`), and it is kept by every way of reading. `Line.WellFormed` is
what follows for a line, and for one that is not raw also that its calls are gone and
that it opens no block.
-/

namespace AsmExpand

/-! ## Tokens -/

/-- A token as it may come from a source: inside a line the scanner reads it so, and it
is no string constant of more than `limit` bytes. -/
structure Token.Sound (limit : Nat) (t : Token) : Prop where
  readable : t.kind.isSeparator = false → Readable t.kind t.literal
  fits : t.isTooLong limit = false

namespace Token

theorem sound_ofText {limit : Nat} {value : String} (h : value.utf8ByteSize ≤ limit)
    (span : Span) : (ofText value span).Sound limit := by
  refine ⟨fun _ => .text value, ?_⟩
  have hfits : ¬limit < (ofText value span).text.utf8ByteSize := Nat.not_lt.mpr h
  simp [isTooLong, hfits]

theorem sound_atEof (limit : Nat) (span : Span) : (atEof span).Sound limit := by
  have hne : (atEof span).kind ≠ .text := nofun
  exact ⟨nofun, isTooLong_of_kind_ne hne limit⟩

end Token

/-- The check makes a readable token sound. -/
theorem Feed.sound_checked (limit : Nat) {t : Token}
    (h : t.kind.isSeparator = false → Readable t.kind t.literal) :
    (checked limit t).Sound limit := by
  unfold checked
  split
  · exact Token.sound_ofText (utf8ByteSize_truncate_le limit t.text) t.span
  · rename_i hfits
    exact ⟨h, by simpa using hfits⟩

namespace Cursor

theorem readable_of_item {c : Cursor} {b : Byte} {rest : List Byte} {t : Token}
    (h : (c.item b rest).1 = .ok t) (hk : t.kind.isSeparator = false) :
    Readable t.kind t.literal := by
  unfold item at h
  split at h
  · cases h
    cases hk
  · dsimp only at h
    split at h
    · rename_i hr
      cases h
      exact Lexeme.readable_of_read hr
    · cases h

/-- What is scanned inside a line is readable. -/
theorem readable_of_mem_items (c : Cursor) {t : Token} (ht : .ok t ∈ c.items)
    (hk : t.kind.isSeparator = false) : Readable t.kind t.literal :=
  forall_mem_items (I := fun _ => True)
    (P := fun i => ∀ t, i = .ok t → t.kind.isSeparator = false → Readable t.kind t.literal)
    (fun _ _ => ⟨fun _ hi => readable_of_item hi, trivial⟩) trivial _ ht t rfl hk

end Cursor

/-! ## Streams -/

namespace Stream

/-- All that the feed has to deliver is sound, once it has passed the check. -/
structure Stocked (limit : Nat) (s : Stream) : Prop where
  pushed : ∀ t ∈ s.feed.pushed, t.Sound limit
  scanned : ∀ t, .ok t ∈ s.feed.scan.items → t.kind.isSeparator = false →
    Readable t.kind t.literal

/-- It is the feed that matters. -/
theorem Stocked.of_feed_eq {limit : Nat} {s t : Stream} (h : s.Stocked limit)
    (hf : t.feed = s.feed) : t.Stocked limit := by
  refine ⟨?_, ?_⟩
  · rw [hf]
    exact h.pushed
  · rw [hf]
    exact h.scanned

theorem stocked_ofSource (limit : Nat) (source : String) : (ofSource source).Stocked limit := by
  refine ⟨fun t ht => (List.not_mem_nil ht).elim, fun t ht => ?_⟩
  rw [ofSource, ofScan, Scan.ofSource_eq] at ht
  exact Cursor.readable_of_mem_items _ ht

theorem draw_stocked (limit : Nat) (endSpan : Span) (log : Diagnostics) {items : List Item}
    (h : ∀ t, .ok t ∈ items → t.kind.isSeparator = false → Readable t.kind t.literal) :
    let d := Feed.draw limit endSpan log items
    d.token.Sound limit ∧ d.feed.pushed = [] ∧
      ∀ t, .ok t ∈ d.feed.scan.items → t.kind.isSeparator = false → Readable t.kind t.literal := by
  fun_induction Feed.draw limit endSpan log items with
  | case1 => exact ⟨Token.sound_atEof limit endSpan, rfl, h⟩
  | case2 log t items =>
    exact ⟨Feed.sound_checked limit (h t List.mem_cons_self), rfl,
      fun u hu => h u (List.mem_cons_of_mem _ hu)⟩
  | case3 log e items ih => exact ih fun u hu => h u (List.mem_cons_of_mem _ hu)

variable {settings : Settings}

/-- What is fetched was in stock. -/
theorem Stocked.fetch {s : Stream} (h : s.Stocked settings.limits.maxStringLength) :
    (s.fetch settings).Stocked settings.limits.maxStringLength ∧
      (s.fetch settings).current.Sound settings.limits.maxStringLength := by
  cases hp : s.feed.pushed with
  | nil =>
    obtain ⟨ht, hq, hs⟩ := draw_stocked settings.limits.maxStringLength s.feed.scan.endSpan s.log
      h.scanned
    rw [fetch_of_drained hp]
    refine ⟨⟨fun x hx => ?_, hs⟩, ht⟩
    rw [hq] at hx
    cases hx
  | cons x xs =>
    obtain ⟨hx, _, hq, hs⟩ := fetch_of_pushed hp settings
    have hpushed := h.pushed
    rw [hp] at hpushed
    refine ⟨⟨fun t ht => ?_, by rw [hs]; exact h.scanned⟩, ?_⟩
    · rw [hq] at ht
      exact hpushed t (List.mem_cons_of_mem _ ht)
    · rw [hx]
      exact hpushed x List.mem_cons_self

/-- A stream at a sound token, to be read with `depth` blocks open. -/
structure Ready (settings : Settings) (depth : Nat) (s : Stream) : Prop where
  stocked : s.Stocked settings.limits.maxStringLength
  current : s.current.Sound settings.limits.maxStringLength
  rawDepth : s.rawDepth = depth
  call : s.call? = none

namespace Ready

/-- **Reading a line keeps a stream ready**, whatever calls are expanded. -/
theorem upkeep (settings : Settings) (depth : Nat) :
    Upkeep settings
      (fun s => s.Stocked settings.limits.maxStringLength ∧ s.rawDepth = depth)
      (Ready settings depth) where
  take := by
    intro s h hc
    obtain ⟨hs, hd⟩ := h
    exact ⟨hs.fetch.1, hs.fetch.2, hd, hc⟩
  call := by
    intro s fn h hc
    obtain ⟨hs, hd⟩ := h
    exact ⟨hs.fetch.1, hd⟩
  ahead := fun h _ => ⟨h.stocked, h.rawDepth⟩
  report := fun h _ _ _ => ⟨h.stocked.of_feed_eq rfl, h.current, h.rawDepth, h.call⟩
  literal := by
    intro s h _ value hsize
    exact ⟨h.stocked.of_feed_eq rfl, Token.sound_ofText hsize _, h.rawDepth,
      call?_of_function?_eq_none rfl⟩
  window := by
    intro s h ts hts
    refine ⟨⟨fun t ht => ?_, h.stocked.scanned⟩, h.rawDepth⟩
    rw [push, Feed.pushed_push] at ht
    rcases List.mem_append.mp ht with ht | ht
    · rcases List.mem_append.mp ht with ht | ht
      · obtain ⟨u, hu, rfl, _⟩ := hts t ht
        exact hu.current
      · rw [List.mem_singleton.mp ht]
        exact h.current
    · exact h.stocked.pushed t ht

variable {depth : Nat} {s : Stream}

theorem self (h : Ready settings depth s) : Ready settings s.rawDepth s :=
  ⟨h.stocked, h.current, rfl, h.call⟩

/-- Outside of blocks no call is shown. -/
theorem function?_eq_none (h : Ready settings depth s) (hr : s.isRaw = false) :
    s.kind.function? = none := by
  have hc := h.call
  rwa [call?, hr, if_neg Bool.false_ne_true] at hc

theorem consumeSeparator (h : Ready settings depth s) (hk : s.kind.isSeparator = true) :
    Ready settings depth (s.consumeSeparator settings) :=
  (upkeep settings depth).consumeSeparator h hk fun _ => ⟨h.stocked, h.rawDepth⟩

theorem openBlock (h : Ready settings depth s) :
    Ready settings s.openBlock.rawDepth s.openBlock := by
  refine ⟨h.stocked.of_feed_eq (feed_openBlock s), ?_, rfl, ?_⟩
  · rw [current_openBlock]
    exact h.current
  · unfold Stream.openBlock
    split
    · rename_i hk
      exact call?_of_function?_eq_none (congrArg Kind.function? hk)
    · exact h.call

theorem closeBlock (h : Ready settings depth s) (hk : s.kind.isSeparator = true) (start : Stream) :
    Ready settings (closeBlock start s).rawDepth (closeBlock start s) := by
  refine ⟨h.stocked.of_feed_eq (feed_closeBlock start s), ?_, rfl, ?_⟩
  · rw [current_closeBlock]
    exact h.current
  · exact call?_of_function?_eq_none (Kind.function?_of_isSeparator (by rw [kind_closeBlock, hk]))

end Ready

end Stream

/-! ## Lines -/

/-- What is so of every line. One that is not raw holds no calls and opens no block. -/
structure Line.WellFormed (limit : Nat) (l : Line) : Prop where
  nonempty : l.tokens ≠ []
  readable : ∀ t ∈ l.tokens, Readable t.kind t.literal
  fits : ∀ t ∈ l.tokens, t.isTooLong limit = false
  expanded : l.raw = false → ∀ t ∈ l.tokens, t.kind.function? = none
  opensNoBlock : l.raw = false → ∀ t ∈ l.tokens.head?, t.kind ≠ .macroStart

namespace Stream

variable {settings : Settings} {depth : Nat} {s : Stream} {lines : Array Line}

theorem forall_mem_addLine {P : Line → Prop} {tokens : List Token} (hl : ∀ l ∈ lines, P l)
    (h : tokens ≠ [] → P ⟨s.current.span.line, s.isRaw, tokens⟩) :
    ∀ l ∈ addLine lines s tokens, P l := by
  intro l hm
  unfold addLine at hm
  split at hm
  · exact hl l hm
  · rename_i hne
    rcases Array.mem_push.mp hm with hm | rfl
    · exact hl l hm
    · exact h (by simpa using hne)

/-- **A statement is a well-formed line**, and the stream is ready at its end. -/
theorem Ready.statement (h : Ready settings depth s)
    (hopen : s.kind = .macroStart → s.isRaw = true) :
    Ready settings depth (s.statement settings).2 ∧
      ((s.statement settings).1 ≠ [] → Line.WellFormed settings.limits.maxStringLength
        ⟨s.current.span.line, s.isRaw, (s.statement settings).1⟩) := by
  obtain ⟨hend, hts⟩ := (upkeep settings depth).invariant.statement h
  refine ⟨hend, fun hne =>
    ⟨hne, fun t ht => ?_, fun t ht => ?_, fun hr t ht => ?_, fun hr t ht => ?_⟩⟩
  · obtain ⟨u, hu, rfl, hk⟩ := hts t ht
    exact hu.current.readable hk
  · obtain ⟨u, hu, rfl, _⟩ := hts t ht
    exact hu.current.fits
  · obtain ⟨u, hu, rfl, _⟩ := hts t ht
    refine hu.function?_eq_none ?_
    rw [isRaw, hu.rawDepth, ← h.rawDepth]
    exact hr
  · have hk : s.kind.isSeparator = false := by
      cases hs : s.kind.isSeparator with
      | false => rfl
      | true =>
        rw [Stream.statement, dif_pos hs] at hne
        exact absurd rfl hne
    obtain rfl := Option.some.inj ((head?_statement settings hk).symm.trans ht)
    intro hstart
    rw [show s.isRaw = true from hopen hstart] at hr
    cases hr

/-- Every line of a source is well-formed. -/
theorem wellFormed_readLines (h : Ready settings s.rawDepth s)
    (hl : ∀ l ∈ lines, l.WellFormed settings.limits.maxStringLength) :
    ∀ l ∈ (s.readLines settings lines).1, l.WellFormed settings.limits.maxStringLength := by
  fun_induction readLines settings lines s with
  | case1 => exact hl
  | case2 lines s hk start r ih =>
    have hopen : start.kind = .macroStart → start.isRaw = true := by
      intro hk
      rw [kind_openBlock] at hk
      simp [start, isRaw, rawDepth_openBlock, hk]
    obtain ⟨hend, hline⟩ := h.openBlock.statement hopen
    have hsep := isSeparator_statement settings start
    have hclosed := hend.closeBlock hsep start
    have hnext := hclosed.consumeSeparator (by rw [kind_closeBlock]; exact hsep)
    exact ih hnext.self (forall_mem_addLine hl hline)

/-- Every line that is read in raw mode is well-formed, and raw. -/
theorem wellFormed_readFlatLines (h : Ready settings depth s) (hd : 0 < depth)
    (hl : ∀ l ∈ lines, l.raw = true ∧ l.WellFormed settings.limits.maxStringLength) :
    ∀ l ∈ (s.readFlatLines settings lines).1,
      l.raw = true ∧ l.WellFormed settings.limits.maxStringLength := by
  fun_induction readFlatLines settings lines s with
  | case1 => exact hl
  | case2 lines s hk r ih =>
    have hraw : s.isRaw = true := decide_eq_true (by rw [h.rawDepth]; exact hd)
    obtain ⟨hend, hline⟩ := h.statement fun _ => hraw
    exact ih (hend.consumeSeparator (isSeparator_statement settings s))
      (forall_mem_addLine hl fun hne => ⟨hraw, hline hne⟩)

end Stream

theorem wellFormed_of_mem_expandSource {settings : Settings} {source : String} {l : Line}
    (h : l ∈ (expandSource settings source).lines) :
    l.WellFormed settings.limits.maxStringLength := by
  have hready := (Stream.Ready.upkeep settings 0).advance
    ⟨Stream.stocked_ofSource settings.limits.maxStringLength source, rfl⟩
  exact Stream.wellFormed_readLines hready.self (by simp) l (Array.mem_toList_iff.mp h)

theorem wellFormed_of_mem_expandSourceRaw {limits : Limits} {source : String} {l : Line}
    (h : l ∈ (expandSourceRaw limits source).lines) :
    l.raw = true ∧ l.WellFormed limits.maxStringLength := by
  have hready := (Stream.Ready.upkeep { limits := limits } 1).advance
    (s := (Stream.ofSource source).enterRaw)
    ⟨(Stream.stocked_ofSource limits.maxStringLength source).of_feed_eq rfl, rfl⟩
  exact Stream.wellFormed_readFlatLines hready Nat.one_pos (by simp) l (Array.mem_toList_iff.mp h)

end AsmExpand
