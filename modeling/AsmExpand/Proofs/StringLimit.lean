import AsmExpand.Proofs.Coverage
import AsmExpand.Proofs.LineTokens
import AsmExpand.Proofs.Session
import Mathlib.Data.List.Nodup

/-!
# The limit of string constants

No string constant in a line is longer than the limit. That is one half, and follows from
what lines hold (`Line.WellFormed.fits`), wherever a constant comes from. The other half is
what the feed does with a scanned constant that is too long: it delivers the longest beginning
that fits (`truncate_longest`), and reports it, once.

What the feed reports on the way through a scan is `Feed.reports`, in which each place occurs
once, since no two items of a scan are at the same place. While a source is read, what is in
the log and what the rest of the scan will report are together an account that no reading
lowers (`Stream.account`). At the end of the input the scan is used up, so the log has it all.
-/

namespace AsmExpand

/-! ## The longest beginning that fits -/

theorem fitting_prefix (room : Nat) (cs : List Char) : fitting room cs <+: cs := by
  fun_induction fitting room cs with
  | case1 => exact List.nil_prefix
  | case2 room c cs h ih => exact (List.prefix_cons_inj c).mpr ih
  | case3 => exact List.nil_prefix

theorem prefix_fitting {room : Nat} {cs p : List Char} (hp : p <+: cs)
    (hroom : (String.ofList p).utf8ByteSize ≤ room) : p <+: fitting room cs := by
  induction p generalizing room cs with
  | nil => exact List.nil_prefix
  | cons c p ih =>
    obtain ⟨rest, rfl⟩ := hp
    rw [String.ofList_cons, String.utf8ByteSize_append, String.utf8ByteSize_singleton] at hroom
    rw [List.cons_append, fitting, if_pos (by omega)]
    exact (List.prefix_cons_inj c).mpr (ih (List.prefix_append p rest) (by omega))

/-- **A truncated text is the longest beginning of the text that fits.** -/
theorem truncate_longest (limit : Nat) (s : String) :
    (truncate limit s).toList <+: s.toList ∧ (truncate limit s).utf8ByteSize ≤ limit ∧
      ∀ p : String, p.toList <+: s.toList → p.utf8ByteSize ≤ limit →
        p.toList <+: (truncate limit s).toList := by
  refine ⟨?_, utf8ByteSize_truncate_le limit s, ?_⟩
  · rw [truncate, String.toList_ofList]
    exact fitting_prefix limit s.toList
  · intro p hp hsize
    rw [truncate, String.toList_ofList]
    exact prefix_fitting hp (by rwa [String.ofList_toList])

/-! ## What the feed reports -/

namespace Feed

/-- The tokens among items. -/
def tokens (items : List Item) : List Token :=
  items.filterMap fun
    | .ok t => some t
    | .error _ => none

theorem mem_tokens {t : Token} {items : List Item} : t ∈ tokens items ↔ .ok t ∈ items := by
  rw [tokens, List.mem_filterMap]
  constructor
  · rintro ⟨i, hi, h⟩
    cases i with
    | ok u => rwa [← Option.some.inj h]
    | error e => cases h
  · intro h
    exact ⟨_, h, rfl⟩

/-- Each token is delivered as the check leaves it. -/
theorem scanned_eq_map (limit : Nat) (items : List Item) :
    scanned limit items = (tokens items).map (checked limit) := by
  induction items with
  | nil => rfl
  | cons i items ih =>
    cases i with
    | ok t => exact congrArg (checked limit t :: ·) ih
    | error e => exact ih

theorem draw_account (limit : Nat) (endSpan : Span) (log : Diagnostics) (items : List Item) :
    (draw limit endSpan log items).log
        ++ reports limit (draw limit endSpan log items).feed.scan.items
      = log ++ reports limit items := by
  fun_induction draw limit endSpan log items with
  | case1 => rfl
  | case2 log t items =>
    rw [reports, checkedLog_eq]
    exact Array.append_assoc
  | case3 log e items ih =>
    rw [ih, reports, Diagnostics.report, ← Array.append_singleton, Array.append_assoc]

/-- The log once a feed has delivered everything. -/
def finalLog (limit : Nat) (log : Diagnostics) (f : Feed) : Diagnostics :=
  let d := f.next limit log
  if _h : d.token.kind = .eof then d.log else finalLog limit d.log d.feed
termination_by f.size
decreasing_by
  have := live_next_add_size_le limit log f
  have := Token.live_of_kind_ne (t := (f.next limit log).token) _h
  omega

/-- An end of the input comes up only when there are no more items. -/
theorem draw_eof (limit : Nat) (endSpan : Span) (log : Diagnostics) {items : List Item}
    (h : ∀ t, .ok t ∈ items → t.kind ≠ .eof) :
    let d := draw limit endSpan log items
    d.feed.pushed = [] ∧ (∀ t, .ok t ∈ d.feed.scan.items → t.kind ≠ .eof) ∧
      (d.token.kind = .eof → d.feed.scan.items = []) := by
  fun_induction draw limit endSpan log items with
  | case1 => exact ⟨rfl, h, fun _ => rfl⟩
  | case2 log t items =>
    refine ⟨rfl, fun u hu => h u (List.mem_cons_of_mem _ hu), fun he => ?_⟩
    rw [kind_checked] at he
    exact absurd he (h t List.mem_cons_self)
  | case3 log e items ih => exact ih fun u hu => h u (List.mem_cons_of_mem _ hu)

/-- **A feed reports what it finds in its scan**, all of it and nothing else. -/
theorem finalLog_eq (limit : Nat) (log : Diagnostics) {f : Feed} (hp : f.pushed = [])
    (h : ∀ t, .ok t ∈ f.scan.items → t.kind ≠ .eof) :
    f.finalLog limit log = log ++ reports limit f.scan.items := by
  fun_induction finalLog limit log f with
  | case1 log f d he =>
    have hd : d = _ := next_of_drained hp limit log
    have hend := (draw_eof limit f.scan.endSpan log h).2.2
    rw [← hd] at hend
    rw [← draw_account limit f.scan.endSpan, ← hd, hend he]
    exact Array.append_empty.symm
  | case2 log f d he ih =>
    have hd : d = _ := next_of_drained hp limit log
    obtain ⟨hp', hrest, _⟩ := draw_eof limit f.scan.endSpan log h
    rw [← hd] at hp' hrest
    rw [ih hp' hrest, ← draw_account limit f.scan.endSpan log, ← hd]

theorem reports_cons (limit : Nat) (i : Item) (items : List Item) :
    reports limit (i :: items) = reports limit [i] ++ reports limit items := by
  cases i with
  | ok t => simp [reports]
  | error e => simp [reports]

theorem span_of_mem_reports_singleton {limit : Nat} {i : Item} {d : Diagnostic}
    (h : d ∈ reports limit [i]) : d.span = Item.span i := by
  cases i with
  | ok t =>
    simp only [reports, checkedLog, Diagnostics.report, Array.append_empty] at h
    split at h
    · simp only [List.push_toArray, List.nil_append, List.mem_toArray, List.mem_singleton] at h
      rw [h]
      rfl
    · simp at h
  | error e =>
    simp only [reports, Array.append_empty, List.mem_toArray, List.mem_singleton] at h
    rw [h]
    rfl

/-- **A feed delivers the tokens of its scan**, each as the check leaves it. -/
theorem delivered_eq_map (limit : Nat) {f : Feed} (hp : f.pushed = [])
    (h : ∀ t, .ok t ∈ f.scan.items → t.kind ≠ .eof) :
    f.delivered limit = (tokens f.scan.items).map (checked limit) := by
  rw [delivered_eq, hp, List.nil_append, ← scanned_eq_map, List.takeWhile_eq_self_iff]
  intro t ht
  obtain ⟨u, hu, rfl⟩ := exists_of_mem_scanned ht
  rw [kind_checked]
  exact decide_eq_true (h u hu)

/-- A report is in the place of an item. -/
theorem exists_of_mem_reports {limit : Nat} {items : List Item} {d : Diagnostic}
    (h : d ∈ reports limit items) : ∃ i ∈ items, d.span = Item.span i := by
  induction items with
  | nil => simp [reports] at h
  | cons i items ih =>
    rw [reports_cons, Array.mem_append] at h
    rcases h with h | h
    · exact ⟨i, List.mem_cons_self, span_of_mem_reports_singleton h⟩
    · obtain ⟨j, hj, hs⟩ := ih h
      exact ⟨j, List.mem_cons_of_mem _ hj, hs⟩

/-- **A constant that is too long is reported once**, if no other item is in its place. -/
theorem count_reports (limit : Nat) {items : List Item}
    (h : items.Pairwise fun i j => Item.span i ≠ Item.span j) {t : Token} (ht : .ok t ∈ items)
    (hlong : t.isTooLong limit = true) :
    (reports limit items).count { span := t.span, cause := .stringTooLong } = 1 := by
  induction items with
  | nil => cases ht
  | cons i items ih =>
    obtain ⟨hi, hitems⟩ := List.pairwise_cons.mp h
    rw [reports_cons, Array.count_append]
    rcases List.mem_cons.mp ht with rfl | ht
    · have hrest : { span := t.span, cause := .stringTooLong } ∉ reports limit items := by
        intro hm
        obtain ⟨j, hj, hs⟩ := exists_of_mem_reports hm
        exact hi j hj hs
      have hone : reports limit [.ok t] = #[{ span := t.span, cause := .stringTooLong }] := by
        simp [reports, checkedLog, hlong, Diagnostics.report]
      rw [Array.count_eq_zero.mpr hrest, hone]
      simp
    · have hfirst : { span := t.span, cause := .stringTooLong } ∉ reports limit [i] := by
        intro hm
        exact hi _ ht (span_of_mem_reports_singleton hm).symm
      rw [Array.count_eq_zero.mpr hfirst, ih hitems ht, Nat.zero_add]

end Feed

/-! ## Reading a source to its end -/

namespace Stream

variable (settings : Settings)

/-- What was reported on a stream, and what the rest of its scan will report. -/
def account (s : Stream) : Diagnostics :=
  s.log ++ Feed.reports settings.limits.maxStringLength s.feed.scan.items

/-- A fetch reports what it takes from the scan. -/
theorem account_fetch (s : Stream) : (s.fetch settings).account settings = s.account settings := by
  cases hp : s.feed.pushed with
  | nil =>
    rw [fetch_of_drained hp]
    exact Feed.draw_account _ _ _ _
  | cons x xs =>
    obtain ⟨_, hlog, _, hscan⟩ := fetch_of_pushed hp settings
    rw [account, hlog, hscan]
    rfl

/-- A stream that is to report `all`, and will end only when it has. -/
structure Reporting (all : Diagnostics) (s : Stream) : Prop where
  sublist : all.toList.Sublist (s.account settings).toList
  scanned : ∀ t, .ok t ∈ s.feed.scan.items → t.kind ≠ .eof
  pushed : ∀ t ∈ s.feed.pushed, t.kind = .eof → s.feed.scan.items = []

/-- The same with a token current. -/
structure ReportingAt (all : Diagnostics) (s : Stream) : Prop extends
    Reporting settings all s where
  current : s.kind = .eof → s.feed.scan.items = []

variable {settings} {all : Diagnostics} {s : Stream}

theorem Reporting.fetch (h : Reporting settings all s) :
    ReportingAt settings all (s.fetch settings) := by
  have hsub : all.toList.Sublist ((s.fetch settings).account settings).toList := by
    rw [account_fetch]
    exact h.sublist
  cases hp : s.feed.pushed with
  | nil =>
    obtain ⟨hq, hrest, hend⟩ := Feed.draw_eof settings.limits.maxStringLength s.feed.scan.endSpan
      s.log h.scanned
    rw [fetch_of_drained hp] at hsub ⊢
    refine ⟨⟨hsub, hrest, fun t ht => ?_⟩, hend⟩
    rw [hq] at ht
    cases ht
  | cons x xs =>
    obtain ⟨hx, _, hq, hscan⟩ := fetch_of_pushed hp settings
    have hpushed := h.pushed
    rw [hp] at hpushed
    refine ⟨⟨hsub, ?_, fun t ht he => ?_⟩, fun he => ?_⟩
    · rw [hscan]
      exact h.scanned
    · rw [hq] at ht
      rw [hscan]
      exact hpushed t (List.mem_cons_of_mem _ ht) he
    · rw [kind, hx] at he
      rw [hscan]
      exact hpushed x List.mem_cons_self he

/-- It is the feed that matters, and that the log has what it had. -/
theorem Reporting.of_feed_eq {t : Stream} (h : Reporting settings all s) (hf : t.feed = s.feed)
    (hlog : s.log.toList.Sublist t.log.toList) : Reporting settings all t := by
  refine ⟨?_, ?_, ?_⟩
  · rw [account, hf, Array.toList_append]
    have hsub := h.sublist
    rw [account, Array.toList_append] at hsub
    exact hsub.trans (hlog.append_right _)
  · rw [hf]
    exact h.scanned
  · rw [hf]
    exact h.pushed

theorem sublist_report (log : Diagnostics) (span : Span) (cause : Cause) :
    log.toList.Sublist (log.report span cause).toList := by
  rw [Diagnostics.report, Array.toList_push]
  exact List.sublist_append_left _ _

/-- **Nothing that is read lowers the account**, whatever calls are expanded. -/
theorem reporting_upkeep (settings : Settings) (all : Diagnostics) :
    Upkeep settings (Reporting settings all) (ReportingAt settings all) where
  take := fun h _ => h.fetch
  call := fun h _ => h.fetch.toReporting
  ahead := fun h _ => h.toReporting
  report := fun h span cause _ =>
    ⟨h.toReporting.of_feed_eq rfl (sublist_report _ span cause), h.current⟩
  literal := by
    intro s h _ value _
    exact ⟨h.toReporting.of_feed_eq rfl (List.Sublist.refl _), nofun⟩
  window := by
    intro s h ts hts
    refine ⟨h.sublist, h.scanned, fun t ht he => ?_⟩
    rw [push, Feed.pushed_push] at ht
    rcases List.mem_append.mp ht with ht | ht
    · rcases List.mem_append.mp ht with ht | ht
      · obtain ⟨u, _, rfl, hk⟩ := hts t ht
        exact absurd he (Kind.ne_of_isSeparator hk rfl)
      · rw [List.mem_singleton.mp ht] at he
        exact h.current he
    · exact h.pushed t ht he

theorem ReportingAt.consumeSeparator (h : ReportingAt settings all s)
    (hk : s.kind.isSeparator = true) :
    ReportingAt settings all (s.consumeSeparator settings) :=
  (reporting_upkeep settings all).consumeSeparator h hk fun _ => h.toReporting

theorem ReportingAt.openBlock (h : ReportingAt settings all s) :
    ReportingAt settings all s.openBlock := by
  unfold Stream.openBlock
  split
  · exact ⟨h.toReporting.of_feed_eq rfl (List.Sublist.refl _), h.current⟩
  · exact h

theorem ReportingAt.closeBlock (h : ReportingAt settings all s) (start : Stream) :
    ReportingAt settings all (closeBlock start s) := by
  unfold Stream.closeBlock
  split
  · exact ⟨h.toReporting.of_feed_eq rfl (List.Sublist.refl _), h.current⟩
  · exact h

/-- At the end of the input everything has been reported. -/
theorem ReportingAt.sublist_log (h : ReportingAt settings all s) (hk : s.kind = .eof) :
    all.toList.Sublist s.log.toList := by
  have hsub := h.sublist
  rw [account, h.current hk] at hsub
  simpa [Feed.reports] using hsub

theorem sublist_reportOpenBlocks (depth : Nat) (s : Stream) :
    s.log.toList.Sublist (reportOpenBlocks depth s).log.toList := by
  induction depth generalizing s with
  | zero => exact List.Sublist.refl _
  | succ depth ih =>
    exact (sublist_report s.log s.current.span .unclosedBlock).trans (ih (s.report .unclosedBlock))

/-- **Reading lines to the end reports what the scan has to report.** -/
theorem sublist_readLines (lines : Array Line) (h : ReportingAt settings all s) :
    all.toList.Sublist (s.readLines settings lines).2.log.toList := by
  obtain ⟨u, hu, hk, hread⟩ := exists_readLines_eq settings (P := ReportingAt settings all)
    (fun {s} hs _ =>
      have hend := ((reporting_upkeep settings all).invariant.statement hs.openBlock).1
      (hend.closeBlock _).consumeSeparator (isSeparator_passStatement settings s)) h lines
  rw [hread]
  exact (hu.sublist_log hk).trans (sublist_reportOpenBlocks _ _)

/-! ## Reading a source as it is -/

/-- In raw mode a statement reports what it takes from the scan. -/
theorem account_statement_of_raw (settings : Settings) {s : Stream} (h : 0 < s.rawDepth) :
    (s.statement settings).2.account settings = s.account settings ∧
      (s.statement settings).2.rawDepth = s.rawDepth := by
  fun_induction statement settings s with
  | case1 => exact ⟨rfl, rfl⟩
  | case2 s hk ts s' hs ih =>
    rw [advance_of_raw settings h] at hs ih
    obtain ⟨haccount, hdepth⟩ := ih h
    rw [hs] at haccount hdepth
    exact ⟨haccount.trans (account_fetch settings s), hdepth⟩

theorem account_consumeSeparator_of_raw (settings : Settings) {s : Stream} (h : 0 < s.rawDepth)
    (hk : s.kind.isSeparator = true) :
    (s.consumeSeparator settings).account settings = s.account settings ∧
      (s.consumeSeparator settings).rawDepth = s.rawDepth := by
  rcases s.kind.isSeparator_iff.mp hk with hk | hk
  · rw [consumeSeparator_of_sep settings hk, advance_of_raw settings h]
    exact ⟨account_fetch settings s, rfl⟩
  · rw [consumeSeparator_of_eof settings hk]
    exact ⟨rfl, rfl⟩

/-- **Reading lines as they are reports what the scan has to report**, and nothing else. -/
theorem log_readFlatLines_of_raw (lines : Array Line) (hr : 0 < s.rawDepth)
    (h : ReportingAt settings all s) :
    (s.readFlatLines settings lines).2.log = s.account settings := by
  fun_induction readFlatLines settings lines s with
  | case1 lines s hk =>
    rw [account, h.current hk]
    exact Array.append_empty.symm
  | case2 lines s hk r ih =>
    have hsep := isSeparator_statement settings s
    obtain ⟨hstatement, hdepth⟩ := account_statement_of_raw settings hr
    have hr' : 0 < r.2.rawDepth := by rwa [hdepth]
    obtain ⟨hnext, hdepth'⟩ := account_consumeSeparator_of_raw settings hr' hsep
    have hend := ((reporting_upkeep settings all).invariant.statement h).1
    rw [ih (by rwa [hdepth']) (hend.consumeSeparator hsep), hnext, hstatement]

theorem reporting_ofSource (settings : Settings) (source : String) :
    Reporting settings (Feed.reports settings.limits.maxStringLength (Scan.ofSource source).items)
      (ofSource source) := by
  refine ⟨?_, ?_, fun t ht => (List.not_mem_nil ht).elim⟩
  · change List.Sublist _ (#[] ++ Feed.reports _ _).toList
    rw [Array.empty_append]
    exact List.Sublist.refl _
  · change ∀ t, .ok t ∈ (Scan.ofSource source).items → _
    rw [Scan.ofSource_eq]
    exact fun t => Cursor.kind_ne_eof_of_mem_items _

end Stream

/-! ## Strings in lines, and strings that are cut -/

/-- No two items of a scan are in the same place. -/
theorem Scan.pairwise_span_ofSource (source : String) :
    (Scan.ofSource source).items.Pairwise fun i j => Item.span i ≠ Item.span j := by
  have tiles := tiles_ofSource source
  refine List.Pairwise.imp_of_mem ?_ tiles.inOrder
  intro i j hi _ hij he
  have hrange := (tiles.range i hi).2.1
  rw [he] at hrange hij
  omega

/-- An item of a scan is known by its place. -/
theorem Scan.eq_of_span_eq (source : String) {i j : Item} (hi : i ∈ (ofSource source).items)
    (hj : j ∈ (ofSource source).items) (h : Item.span i = Item.span j) : i = j :=
  List.inj_on_of_nodup_map (List.pairwise_map.mpr (pairwise_span_ofSource source)) hi hj h

/-- No item of a scan is at its end. -/
theorem Scan.span_ne_endSpan (source : String) {i : Item} (hi : i ∈ (ofSource source).items) :
    Item.span i ≠ (ofSource source).endSpan := by
  have hrange := (tiles_ofSource source).range i hi
  obtain ⟨d, _, hend⟩ := (Cursor.ofSource source).exists_endSpan (Cursor.Behind.ofSource source)
  intro h
  rw [h, ofSource_eq, hend] at hrange
  exact absurd hrange.2.1 (Nat.lt_irrefl _)

/-- A string constant in a line is within the limit. -/
theorem Line.WellFormed.utf8ByteSize_le {limit : Nat} {l : Line} (h : l.WellFormed limit)
    {t : Token} (ht : t ∈ l.tokens) (hk : t.kind = .text) : t.text.utf8ByteSize ≤ limit := by
  simpa [Token.isTooLong, hk] using h.fits t ht

/-- When a source is read, all that the feed has to report is reported, in its order. -/
theorem reports_sublist_expandSource (settings : Settings) (source : String) :
    (Feed.reports settings.limits.maxStringLength (Scan.ofSource source).items).toList.Sublist
      (expandSource settings source).diagnostics.toList :=
  Stream.sublist_readLines #[]
    ((Stream.reporting_upkeep settings _).advance (Stream.reporting_ofSource settings source))

/-- When a source is read raw, what the feed has to report is all that is reported. -/
theorem diagnostics_expandSourceRaw (limits : Limits) (source : String) :
    (expandSourceRaw limits source).diagnostics
      = Feed.reports limits.maxStringLength (Scan.ofSource source).items := by
  have hraw : 0 < (Stream.ofSource source).enterRaw.rawDepth := Nat.one_pos
  have hstart := (Stream.reporting_ofSource { limits := limits } source).of_feed_eq
    (t := (Stream.ofSource source).enterRaw) rfl (List.Sublist.refl _)
  have hfirst := (Stream.reporting_upkeep { limits := limits } _).advance hstart
  have hdepth := (Stream.ofSource source).enterRaw.rawDepth_advance { limits := limits }
  refine (Stream.log_readFlatLines_of_raw #[] (by rwa [hdepth]) hfirst).trans ?_
  rw [Stream.advance_of_raw _ hraw, Stream.account_fetch]
  exact Array.empty_append

/-- **String constants and the limit.** No string constant in a line is longer than the limit.
The scanned tokens are delivered as they are, but for string constants that are too long: of
these the longest beginning that fits is delivered, and the feed reports each of them once, in
its place. When a source is read, all that the feed has to report is reported, in its order;
when it is read raw, nothing else is. With lines counted in 32 bits, this is about sources of
fewer than 2^32 lines. -/
theorem strings_within_limit (settings : Settings) (source : String) :
    let limit := settings.limits.maxStringLength
    let feed : Feed := ⟨[], Scan.ofSource source⟩
    let reports := Feed.reports limit feed.scan.items
    (∀ l ∈ (expandSource settings source).lines ++ (expandSourceRaw settings.limits source).lines,
      ∀ t ∈ l.tokens, t.kind = .text → t.text.utf8ByteSize ≤ limit) ∧
    (feed.delivered limit = (Feed.tokens feed.scan.items).map (Feed.checked limit) ∧
      feed.finalLog limit #[] = reports) ∧
    (∀ t ∈ Feed.tokens feed.scan.items, t.kind = .text → limit < t.text.utf8ByteSize →
      ∃ cut : String, Feed.checked limit t = .ofText cut t.span ∧
        (cut.toList <+: t.text.toList ∧ cut.utf8ByteSize ≤ limit ∧
          ∀ p : String, p.toList <+: t.text.toList → p.utf8ByteSize ≤ limit →
            p.toList <+: cut.toList) ∧
        reports.count { span := t.span, cause := .stringTooLong } = 1) ∧
    reports.toList.Sublist (expandSource settings source).diagnostics.toList ∧
    (expandSourceRaw settings.limits source).diagnostics = reports := by
  intro limit feed reports
  have hlive : ∀ t, .ok t ∈ feed.scan.items → t.kind ≠ .eof :=
    (Stream.reporting_ofSource settings source).scanned
  refine ⟨?_, ⟨Feed.delivered_eq_map limit rfl hlive, ?_⟩, ?_,
    reports_sublist_expandSource settings source, diagnostics_expandSourceRaw _ source⟩
  · intro l hl t ht hk
    rcases List.mem_append.mp hl with hl | hl
    · exact (wellFormed_of_mem_expandSource hl).utf8ByteSize_le ht hk
    · exact (wellFormed_of_mem_expandSourceRaw hl).2.utf8ByteSize_le ht hk
  · rw [Feed.finalLog_eq limit #[] rfl hlive, Array.empty_append]
  · intro t ht hk hlong
    have htoo : t.isTooLong limit = true := by simp [Token.isTooLong, hk, hlong]
    refine ⟨truncate limit t.text, if_pos htoo, truncate_longest limit t.text, ?_⟩
    exact Feed.count_reports limit (Scan.pairwise_span_ofSource source) (Feed.mem_tokens.mp ht) htoo

/-- The last character of a constant has two bytes, and only one of them would fit. -/
theorem strings_within_limit_cut :
    let settings : Settings := { limits := { maxStringLength := 4 } }
    let source := "x .concat(\"abcé\")"
    let t : Token := .ofText "abcé" ⟨1, 11, 18⟩
    let listed : Token := .ofText "abc" ⟨1, 18, 19⟩
    let l : Line := ⟨1, false, [⟨.ident, some (.text "x"), ⟨1, 1, 2⟩⟩, listed]⟩
    let reports := Feed.reports 4 (Scan.ofSource source).items
    l ∈ (expandSource settings source).lines ∧ listed.text.utf8ByteSize ≤ 4 ∧
      t ∈ Feed.tokens (Scan.ofSource source).items ∧ 4 < t.text.utf8ByteSize ∧
      (∃ cut : String, Feed.checked 4 t = .ofText cut t.span ∧
        ∀ p : String, p.toList <+: t.text.toList → p.utf8ByteSize ≤ 4 →
          p.toList <+: cut.toList) ∧
      reports.count { span := t.span, cause := .stringTooLong } = 1 := by
  intro settings source t listed l reports
  have hl : l ∈ (expandSource settings source).lines := by decide +kernel
  have ht : t ∈ Feed.tokens (Scan.ofSource source).items := by decide +kernel
  have hlong : 4 < t.text.utf8ByteSize := by decide +kernel
  obtain ⟨within, _, cuts, _⟩ := strings_within_limit settings source
  have hwithin := within l (List.mem_append_left _ hl) listed (by simp [l]) rfl
  obtain ⟨cut, hcut, ⟨_, _, hlongest⟩, hcount⟩ := cuts t ht rfl hlong
  exact ⟨hl, hwithin, ht, hlong, ⟨cut, hcut, hlongest⟩, hcount⟩

end AsmExpand
