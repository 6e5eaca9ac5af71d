import AsmExpand.Proofs.ReadBack
import AsmExpand.Proofs.Scanning
import Mathlib.Data.List.Chain

/-!
# Rendered tokens are scanned again

A line of tokens is rendered with one blank between two of them, except where the
second attaches or the first glues. Where a blank stands, or something that attaches,
the token before it ends. What glues is a parenthesis or `#`, which end anywhere, or the
keyword of a token function; and that one would go on with a name or a number. So the
rendered tokens are scanned as the same kinds and values, **unless a token function is
followed by a word directly** (`Cursor.reading_rendered_iff`).

A closing quote ends a string constant before anything, so a text that was quoted is read back
whatever stands behind it (`scan_quote`).
-/

namespace AsmExpand

/-- What a token is, its place apart. -/
def Token.reading (t : Token) : Kind × Option Literal := (t.kind, t.literal)

/-- What an item is, its place apart, if it is no fault. -/
def Item.reading? : Item → Option (Kind × Option Literal)
  | .ok t => some t.reading
  | .error _ => none

/-- Whether a token does not run into the one behind it when they are rendered: a token
function glues, and a word goes on with it. -/
def Token.Parts (t u : Token) : Prop := t.kind.function? = none ∨ u.kind.isWord = false

instance (t u : Token) : Decidable (t.Parts u) := inferInstanceAs (Decidable (_ ∨ _))

/-- The bytes of rendered tokens. -/
def rendered (glued : Bool) (ts : List Token) : List Byte :=
  Utf8.bytes (String.join (renderFrom glued ts))

@[simp] theorem rendered_nil (glued : Bool) : rendered glued [] = [] := rfl

theorem rendered_cons (glued : Bool) (t : Token) (ts : List Token) :
    rendered glued (t :: ts) = (if glued || t.kind.attaches then [] else [Byte.ofChar ' '])
      ++ (Utf8.bytes t.source ++ rendered t.kind.glues ts) := by
  rw [rendered, renderFrom, String.join_cons, Utf8.bytes_append, Utf8.bytes_append,
    List.append_assoc]
  split
  · rfl
  · rfl

/-- Tokens that the scanner may have read inside a line. -/
def AllReadable (ts : List Token) : Prop := ∀ t ∈ ts, Readable t.kind t.literal

namespace Byte

theorem startsAt_visible : ∀ (k : Kind) (b : Byte), k.startsAt b = true →
    b.isBlank = false ∧ b ≠ .ofChar ';' ∧ b.isNewline = false := by
  intro k b h
  simp only [Kind.startsAt, Bool.and_eq_true, Bool.not_eq_true', bne_iff_ne] at h
  exact ⟨h.1.1.1, h.1.2, h.1.1.2⟩

theorem continuesName_of_startsAt {k : Kind} {b : Byte} (h : k.startsAt b = true) :
    b.continuesName = k.isWord := by
  simp only [Kind.startsAt, Bool.and_eq_true, beq_iff_eq] at h
  exact h.2

end Byte

/-- Every token ends before a blank and before what attaches. -/
theorem Kind.endsAt_of_blank (k : Kind) {b : Byte} (h : b ∈ [Byte.ofChar ' ', .ofChar ',',
    .ofChar ')', .ofChar ':']) : k.endsAt b = true := by
  have hclasses : b.continuesName = false ∧ b.continuesNumber = false ∧
      b.continuesOperator = false := by
    simp only [List.mem_cons, List.not_mem_nil, or_false] at h
    rcases h with rfl | rfl | rfl | rfl
    · decide
    · decide
    · decide
    · decide
  obtain ⟨name, number, operator⟩ := hclasses
  cases k <;> simp [endsAt, name, number, operator]

/-- What attaches is written with the byte that it is. -/
theorem SpelledBy.of_attaches {t : Token} {k : Kind} {l : Option Literal} {b : Byte}
    {more : List Byte} (h : SpelledBy t.source k l b more) (ht : t.kind.attaches = true) :
    b ∈ [Byte.ofChar ' ', .ofChar ',', .ofChar ')', .ofChar ':'] := by
  have hsource : t.source ∈ [",", ")", ":"] := by
    cases hk : t.kind <;> simp_all [Kind.attaches, Token.source]
  have hbytes := h.bytes
  simp only [List.mem_cons, List.not_mem_nil, or_false] at hsource
  rcases hsource with hs | hs | hs
  · rw [hs] at hbytes
    obtain ⟨rfl, _⟩ := List.cons.inj hbytes
    decide
  · rw [hs] at hbytes
    obtain ⟨rfl, _⟩ := List.cons.inj hbytes
    decide
  · rw [hs] at hbytes
    obtain ⟨rfl, _⟩ := List.cons.inj hbytes
    decide

/-- A token ends before the one that is rendered behind it, if it parts from it. -/
theorem endsBefore_rendered {t u : Token} {us : List Token} (hu : Readable u.kind u.literal)
    (hp : t.Parts u) : t.kind.endsBefore (rendered t.kind.glues (u :: us)) = true := by
  obtain ⟨b, more, hspelled⟩ := hu.spelled u.span
  rw [rendered_cons, show Utf8.bytes u.source = b :: more from hspelled.bytes]
  cases ha : u.kind.attaches with
  | true =>
    rw [Bool.or_true, if_pos rfl]
    exact t.kind.endsAt_of_blank (SpelledBy.of_attaches (t := u) hspelled ha)
  | false =>
    cases hg : t.kind.glues with
    | false =>
      rw [Bool.or_false, if_neg Bool.false_ne_true]
      exact t.kind.endsAt_of_blank (by decide)
    | true =>
      rw [Bool.true_or, if_pos rfl]
      -- a parenthesis or a hash ends anywhere, and a token function before what is no word
      change t.kind.endsAt b = true
      have hb := Byte.continuesName_of_startsAt hspelled.starts
      rcases hp with hf | hw
      · cases hk : t.kind <;> simp_all [Kind.glues, Kind.endsAt, Kind.function?]
      · rw [hw] at hb
        cases hk : t.kind <;> simp_all [Kind.glues, Kind.endsAt]

namespace Lexeme

/-- A function keyword is its word, in either case. -/
theorem word_of_keyword {bs : List Byte} {f : TokenFunction} {l : Option Literal}
    (h : (keyword bs).reading = .ok (.call f, l)) :
    '.' :: (chars (bs.takeWhile (·.continuesName))).map Char.toUpper = f.source.toList := by
  unfold keyword at h
  split at h
  · cases h
  split at h
  · dsimp only at h
    generalize hword : (chars (List.takeWhile (·.continuesName) _)).map Char.toUpper = word at h ⊢
    have hkind : keywordKind (String.ofList word) = .call f := by
      split at h
      · cases h
      · exact (Prod.mk.inj (Except.ok.inj h)).1
    have hsource : "." ++ String.ofList word = f.source := by
      unfold keywordKind at hkind
      split at hkind <;> cases hkind <;> simp_all [TokenFunction.source]
    rw [← hsource, String.toList_append]
    exact congrArg ('.' :: ·) String.toList_ofList.symm
  · cases h

theorem bytes_source (f : TokenFunction) : ∃ word : List Byte,
    Utf8.bytes f.source = .ofChar '.' :: word ∧ f.source.toList.length = word.length + 1 ∧
      word.all Byte.continuesName = true := by
  cases f
  · exact ⟨_, rfl, rfl, rfl⟩
  · exact ⟨_, rfl, rfl, rfl⟩
  · exact ⟨_, rfl, rfl, rfl⟩
  · exact ⟨_, rfl, rfl, rfl⟩
  · exact ⟨_, rfl, rfl, rfl⟩

/-- **A function keyword with a word behind it is no such keyword.** -/
theorem reading_ne_call {left : Left} {f : TokenFunction} {b c : Byte} {more rest : List Byte}
    {l : Option Literal} (hbytes : Utf8.bytes f.source = b :: more)
    (hc : c.continuesName = true) :
    (read left b (more ++ c :: rest)).reading ≠ .ok (.call f, l) := by
  obtain ⟨word, hsource, hlen, hword⟩ := bytes_source f
  obtain ⟨rfl, rfl⟩ := List.cons.inj (hbytes.symm.trans hsource)
  intro h
  have hlong := congrArg List.length (word_of_keyword h)
  -- the word that is read is longer by what stands behind the keyword
  rw [List.length_cons, List.length_map, chars, List.length_map, hlen,
    List.takeWhile_append_of_pos (List.all_eq_true.mp hword), List.takeWhile_cons_of_pos hc,
    List.length_append, List.length_cons] at hlong
  omega

end Lexeme

/-- Behind a token function that does not part from it, a word goes on with the keyword. -/
theorem exists_rendered_of_not_parts {t u : Token} (us : List Token)
    (hu : Readable u.kind u.literal) (hp : ¬t.Parts u) :
    ∃ f c rest, t.kind = .call f ∧ c.continuesName = true ∧
      rendered t.kind.glues (u :: us) = c :: rest := by
  simp only [Token.Parts, not_or, Bool.not_eq_false] at hp
  obtain ⟨hf, hw⟩ := hp
  obtain ⟨b, more, hspelled⟩ := hu.spelled u.span
  have hb := Byte.continuesName_of_startsAt hspelled.starts
  rw [hw] at hb
  cases hk : t.kind
  case call f =>
    refine ⟨f, b, more ++ rendered u.kind.glues us, rfl, hb, ?_⟩
    rw [rendered_cons, show Utf8.bytes u.source = b :: more from hspelled.bytes]
    rfl
  all_goals exact absurd (by rw [hk]; rfl) hf

/-- Rendered tokens are one line. -/
theorem newline_notMem_rendered (glued : Bool) {ts : List Token} (hr : AllReadable ts) :
    Byte.newline ∉ rendered glued ts := by
  induction ts generalizing glued with
  | nil => simp
  | cons t ts ih =>
    obtain ⟨b, more, hspelled⟩ := (hr t List.mem_cons_self).spelled t.span
    obtain ⟨_, _, hb⟩ := Byte.startsAt_visible _ _ hspelled.starts
    have hnewline : Byte.newline.isNewline = true := by decide
    intro hmem
    rw [rendered_cons, show Utf8.bytes t.source = b :: more from hspelled.bytes] at hmem
    rcases List.mem_append.mp hmem with hmem | hmem
    · split at hmem
      · cases hmem
      · exact absurd (List.mem_singleton.mp hmem) (by decide)
    · rcases List.mem_append.mp hmem with hmem | hmem
      · rcases List.mem_cons.mp hmem with rfl | hmem
        · rw [hnewline] at hb
          cases hb
        · rw [hspelled.onLine _ hmem] at hnewline
          cases hnewline
      · exact ih _ (fun u hu => hr u (List.mem_cons_of_mem _ hu)) hmem

namespace Cursor

/-- Without a newline nothing is a separator. -/
theorem not_isSeparator_of_mem_items {c : Cursor} (hn : Byte.newline ∉ c.rest) {t : Token}
    (ht : .ok t ∈ c.items) : t.kind.isSeparator = false := by
  refine forall_mem_items (I := fun c => Byte.newline ∉ c.rest)
    (P := fun i => ∀ t, i = .ok t → t.kind.isSeparator = false)
    (fun {c b rest} hn h => ?_) hn _ ht t rfl
  have hsub : Byte.newline ∉ b :: rest := by
    rw [← h]
    exact fun hx => hn (List.mem_of_mem_drop hx)
  rcases item_cases c.skipGap b rest with ⟨hb, _⟩ | ⟨_, ⟨k, l, hk, hi⟩ | ⟨f, hi⟩⟩
  · have hb : b = .newline := by simpa [Byte.isNewline, Byte.newline] using hb
    exact absurd List.mem_cons_self (hb ▸ hsub)
  · rw [hi, skip_rest, h]
    refine ⟨fun t ht => ?_, fun hx => hsub (List.mem_of_mem_drop hx)⟩
    cases ht
    exact hk
  · rw [hi, skip_rest, h]
    refine ⟨fun t ht => ?_, fun hx => hsub (List.mem_of_mem_drop hx)⟩
    cases ht

theorem gap_of_startsAt {k : Kind} {b : Byte} (h : k.startsAt b = true) (rest : List Byte) :
    gap (b :: rest) = 0 ∧ gap (.ofChar ' ' :: b :: rest) = 1 := by
  obtain ⟨hblank, hcomment, _⟩ := Byte.startsAt_visible k b h
  have hspace : Byte.isBlank (.ofChar ' ') = true := by decide
  simp [gap, hblank, hcomment, hspace]

/-- The gap before rendered tokens is the blank, if there is one. -/
theorem rest_skipGap_rendered {c : Cursor} {glued : Bool} {ts : List Token}
    (h : c.rest = rendered glued ts) (hr : AllReadable ts) :
    c.skipGap.rest = rendered true ts := by
  rw [skipGap, skip_rest, h]
  cases ts with
  | nil => simp
  | cons t ts =>
    obtain ⟨b, more, hspelled⟩ := (hr t List.mem_cons_self).spelled t.span
    obtain ⟨hplain, hblank⟩ := gap_of_startsAt hspelled.starts (more ++ rendered t.kind.glues ts)
    rw [rendered_cons, rendered_cons, show Utf8.bytes t.source = b :: more from hspelled.bytes]
    simp only [Bool.true_or, if_true, List.nil_append, List.cons_append]
    split
    · rw [List.nil_append, hplain, List.drop_zero]
    · rw [List.singleton_append, hblank, List.drop_one, List.tail_cons]

/-- A token is read where it is spelled, before something that ends it, and the cursor moves
over its bytes. -/
theorem item_of_spelled {c : Cursor} {t : Token} {b : Byte} {more rest : List Byte}
    (hspelled : SpelledBy t.source t.kind t.literal b more)
    (hends : t.kind.endsBefore rest = true) :
    c.item b (more ++ rest) = (.ok { t with span := c.span (more.length + 1) },
      c.skip (more.length + 1)) := by
  obtain ⟨_, _, hline⟩ := Byte.startsAt_visible _ _ hspelled.starts
  simp [item, hline, hspelled.reads _ _ hends, Lexeme.width]

/-- A token is scanned as what it is, before something that ends it. -/
theorem item_of_ends {c : Cursor} {t : Token} {b : Byte} {more rest : List Byte}
    (hspelled : SpelledBy t.source t.kind t.literal b more) (hrest : c.rest = b :: (more ++ rest))
    (hends : t.kind.endsBefore rest = true) :
    (c.item b (more ++ rest)).1.reading? = some t.reading ∧
      (c.item b (more ++ rest)).2.rest = rest := by
  rw [item_of_spelled hspelled hends]
  refine ⟨rfl, ?_⟩
  simp [skip_rest, hrest]

/-- A token that does not part from the next is scanned as something else. -/
theorem item_of_not_parts {c : Cursor} {t u : Token} {us : List Token} {b : Byte}
    {more : List Byte} (hspelled : SpelledBy t.source t.kind t.literal b more)
    (hu : Readable u.kind u.literal) (hp : ¬t.Parts u) :
    (c.item b (more ++ rendered t.kind.glues (u :: us))).1.reading? ≠ some t.reading := by
  obtain ⟨_, _, hline⟩ := Byte.startsAt_visible _ _ hspelled.starts
  obtain ⟨f, b', rest, hf, hb', hrendered⟩ := exists_rendered_of_not_parts us hu hp
  have hsource : Utf8.bytes f.source = b :: more := by
    rw [← hspelled.bytes, Token.source, hf]
  intro h
  have hread : (Lexeme.read c.left b (more ++ b' :: rest)).reading = .ok (.call f, t.literal) := by
    simp only [hrendered, item, hline, Bool.false_eq_true, if_false] at h
    split at h
    · rename_i k l hr
      obtain ⟨hk, hl⟩ := Prod.mk.inj (Option.some.inj h)
      rw [hr, ← hf, ← hk, ← hl]
    · cases h
  exact Lexeme.reading_ne_call hsource hb' hread

/-- **Rendered tokens are scanned as what they are, if and only if each parts from the
next.** -/
theorem reading_rendered_iff {ts : List Token} : ∀ {c : Cursor} {glued : Bool},
    c.rest = rendered glued ts → AllReadable ts →
      (c.items.map Item.reading? = ts.map (fun t => some t.reading) ↔ ts.IsChain Token.Parts) := by
  induction ts with
  | nil =>
    intro c glued h _
    have hrest := rest_skipGap_rendered h (by simp [AllReadable])
    rw [items_of_nil hrest]
    simp
  | cons t ts ih =>
    intro c glued h hr
    have hts : AllReadable ts := fun u hu => hr u (List.mem_cons_of_mem _ hu)
    obtain ⟨b, more, hspelled⟩ := (hr t List.mem_cons_self).spelled t.span
    have hrest : c.skipGap.rest = b :: (more ++ rendered t.kind.glues ts) := by
      rw [rest_skipGap_rendered h hr, rendered_cons,
        show Utf8.bytes t.source = b :: more from hspelled.bytes]
      rfl
    rw [items_of_cons hrest, List.map_cons, List.map_cons, List.cons.injEq, List.isChain_cons]
    by_cases hp : ∀ u ∈ ts.head?, t.Parts u
    · have hends : t.kind.endsBefore (rendered t.kind.glues ts) = true := by
        cases ts with
        | nil => rfl
        | cons u us => exact endsBefore_rendered (hts u List.mem_cons_self) (hp u rfl)
      obtain ⟨hitem, hnext⟩ := item_of_ends hspelled hrest hends
      rw [ih hnext hts]
      exact ⟨fun h => ⟨hp, h.2⟩, fun h => ⟨hitem, h.2⟩⟩
    · refine ⟨fun h => ?_, fun h => absurd h.1 hp⟩
      cases ts with
      | nil => exact absurd (by simp) hp
      | cons u us =>
        have hu : ¬t.Parts u := by simpa using hp
        exact absurd h.1 (item_of_not_parts hspelled (hts u List.mem_cons_self) hu)

/-- A token that is written next, before something that ends it, is the next item, and the
scan goes on behind it. -/
theorem next_of_source {c : Cursor} {t : Token} {rest : List Byte} (hr : Readable t.kind t.literal)
    (hrest : c.rest = Utf8.bytes t.source ++ rest) (hends : t.kind.endsBefore rest = true) :
    let n := (Utf8.bytes t.source).length
    c.next = (.ok { t with span := c.span n }, c.skip n) ∧
      c.items = .ok { t with span := c.span n } :: (c.skip n).items := by
  intro n
  obtain ⟨b, more, hspelled⟩ := hr.spelled t.span
  have hbytes : Utf8.bytes t.source = b :: more := hspelled.bytes
  have hlength : n = more.length + 1 := congrArg List.length hbytes
  rw [hbytes, List.cons_append] at hrest
  have hgap : c.skipGap = c := skipGap_of_gap (by rw [hrest, (gap_of_startsAt hspelled.starts _).1])
  have hitem := item_of_spelled (c := c) hspelled hends
  constructor
  · rw [next, hgap, hrest, hlength]
    exact hitem
  · rw [items_of_cons (by rw [hgap, hrest]), hgap, hitem, hlength]

end Cursor

/-- **A text that was quoted is read back first**, whatever stands behind it: the value is the
text, the place that of the quotes and what is between them, and the scan goes on behind. -/
theorem scan_quote (v r : String) :
    (Cursor.ofSource (quote v ++ r)).rest = Utf8.bytes (quote v) ++ Utf8.bytes r ∧
      let c := Cursor.ofSource (quote v ++ r)
      let width := (Utf8.bytes (quote v)).length
      let token := Token.ofText v ⟨1, 1, 1 + width⟩
      let behind := c.skip width
      c.next = (.ok token, behind) ∧
        (Scan.ofSource (quote v ++ r)).items = .ok token :: behind.items ∧
        behind.rest = Utf8.bytes r ∧ behind.line = 1 ∧ behind.column = 1 + width := by
  have hrest : (Cursor.ofSource (quote v ++ r)).rest = Utf8.bytes (quote v) ++ Utf8.bytes r :=
    Utf8.bytes_append _ _
  refine ⟨hrest, ?_⟩
  intro c width token behind
  -- a closing quote ends the constant before anything
  have hends : Kind.text.endsBefore (Utf8.bytes r) = true := by
    rw [Kind.endsBefore]
    cases (Utf8.bytes r).head? <;> rfl
  obtain ⟨hnext, hitems⟩ := Cursor.next_of_source (c := c) (t := token) (.text v) hrest hends
  have hbehind : behind.rest = Utf8.bytes r := by rw [Cursor.skip_rest, hrest, List.drop_left]
  exact ⟨hnext, hitems, hbehind, rfl, rfl⟩

end AsmExpand
