import AsmExpand.Proofs.Scanning
import Mathlib.Data.List.Basic
import Mathlib.Data.List.TakeWhile

/-!
# The scan covers the source

A place is a line and columns on it, and both come from bytes: a line begins behind a
newline, and a column counts the bytes of its line. So a place has an offset in the source
(`Span.start`), and a cursor that has moved over some bytes stands at the offset behind them
(`Cursor.Behind`).

Seen by offsets, a scan is a tiling (`Tiles`): a gap, the bytes of an item, a gap, the bytes
of an item, and so on to a last gap. A gap is blanks and perhaps a comment. An item takes
a newline if it is a separator, and bytes without any newline otherwise. The scanner builds
the tiling in one induction (`Cursor.tiles_items`), and what is known of ranges, gaps and
newlines is read off it.

`scan_covers` puts this together with what single calls of the scanner return.
-/

namespace AsmExpand

/-! ## Offsets of places -/

/-- The offset at which a line begins that has `n` lines before it. -/
def lineOffset : Nat → List Byte → Nat
  | 0, _ => 0
  | _ + 1, [] => 0
  | n + 1, b :: bs => lineOffset (if b.isNewline then n else n + 1) bs + 1

@[simp] theorem lineOffset_zero (bs : List Byte) : lineOffset 0 bs = 0 := by
  rw [lineOffset]

/-- Behind a newline a line begins. -/
theorem lineOffset_newline (done rest : List Byte) :
    lineOffset (done.count .newline + 1) (done ++ .newline :: rest) = done.length + 1 := by
  induction done with
  | nil =>
    rw [List.nil_append, List.count_nil, lineOffset, if_pos (by decide), lineOffset_zero]
    rfl
  | cons b done ih =>
    rw [List.cons_append, lineOffset]
    by_cases hb : b = .newline
    · rw [hb, List.count_cons_self, if_pos (by decide), ih]
      rfl
    · have hn : b.isNewline = false := by simpa [Byte.isNewline, Byte.newline] using hb
      rw [List.count_cons_of_ne hb, hn, if_neg Bool.false_ne_true, ih]
      rfl

namespace Span

/-- The offset of the first byte of a place. -/
def start (bs : List Byte) (p : Span) : Nat := lineOffset (p.line - 1) bs + p.colStart - 1

/-- The offset behind the last byte of a place. -/
def stop (bs : List Byte) (p : Span) : Nat := lineOffset (p.line - 1) bs + p.colEnd - 1

end Span

namespace Item

def span : Item → Span
  | .ok t => t.span
  | .error e => e.span

/-- Whether an item is the end of a line. -/
def isSep : Item → Bool
  | .ok t => t.kind = .sep
  | .error _ => false

end Item

/-- A cursor that has moved over `done`, from the start of a source. -/
structure Cursor.Behind (done : List Byte) (c : Cursor) : Prop where
  line : c.line = done.count .newline + 1
  column : ∀ rest, lineOffset (done.count .newline) (done ++ rest) + c.column = done.length + 1

namespace Cursor.Behind

variable {done own : List Byte} {c : Cursor}

theorem ofSource (source : String) : Behind [] (.ofSource source) :=
  ⟨rfl, fun rest => by rw [List.count_nil, lineOffset_zero]; rfl⟩

/-- Moving on inside a line. -/
theorem skip (h : Behind done c) (hl : .newline ∉ own) :
    Behind (done ++ own) (c.skip own.length) := by
  have hcount : (done ++ own).count .newline = done.count .newline := by
    rw [List.count_append, List.count_eq_zero.mpr hl, Nat.add_zero]
  refine ⟨by rw [hcount]; exact h.line, fun rest => ?_⟩
  have := h.column (own ++ rest)
  rw [hcount, List.append_assoc, List.length_append]
  simp only [Cursor.skip]
  omega

theorem newline (h : Behind done c) : Behind (done ++ [.newline]) c.newline := by
  refine ⟨?_, fun rest => ?_⟩
  · rw [List.count_append, List.count_singleton_self]
    exact congrArg (· + 1) h.line
  · rw [List.count_append, List.count_singleton_self, List.append_assoc, List.singleton_append,
      lineOffset_newline, List.length_append]
    rfl

/-- The bytes from a cursor on begin at the offset that its place has. -/
theorem start_span (h : Behind done c) (rest : List Byte) (width : Nat) :
    (c.span width).start (done ++ rest) = done.length := by
  have := h.column rest
  simp only [Span.start, Cursor.span, h.line, Nat.add_sub_cancel]
  omega

theorem stop_span (h : Behind done c) (rest : List Byte) (width : Nat) :
    (c.span width).stop (done ++ rest) = done.length + width := by
  have := h.column rest
  simp only [Span.stop, Cursor.span, h.line, Nat.add_sub_cancel]
  omega

end Cursor.Behind

/-! ## Gaps and items -/

/-- What may stand between items: blanks, and behind them a comment. -/
inductive Gap : List Byte → Prop where
  | blanks {blanks : List Byte} : (∀ b ∈ blanks, b.isBlank = true) → Gap blanks
  | comment {blanks text : List Byte} : (∀ b ∈ blanks, b.isBlank = true) →
      (∀ b ∈ text, b.endsLine = false) → Gap (blanks ++ .ofChar ';' :: text)

theorem Gap.newline_notMem {gap : List Byte} (h : Gap gap) : .newline ∉ gap := by
  have hblank : Byte.newline.isBlank = false := by decide
  have hend : Byte.newline.endsLine = true := by decide
  cases h with
  | blanks hb =>
    intro hm
    exact absurd (hb _ hm) (by simp [hblank])
  | comment hb ht =>
    intro hm
    rcases List.mem_append.mp hm with hm | hm
    · exact absurd (hb _ hm) (by simp [hblank])
    · rcases List.mem_cons.mp hm with hm | hm
      · exact absurd hm (by decide)
      · exact absurd (ht _ hm) (by simp [hend])

namespace Cursor

/-- What a cursor moves over as a gap is one. -/
theorem exists_gap (bs : List Byte) :
    ∃ own rest, bs = own ++ rest ∧ gap bs = own.length ∧ Gap own := by
  have hblanks : ∀ b ∈ bs.takeWhile (·.isBlank), b.isBlank = true :=
    fun b hb => List.mem_takeWhile_imp hb
  have hsplit := (List.takeWhile_append_dropWhile (p := (·.isBlank)) (l := bs)).symm
  have none_else : gap bs = (bs.takeWhile (·.isBlank)).length →
      ∃ own rest, bs = own ++ rest ∧ gap bs = own.length ∧ Gap own :=
    fun h => ⟨_, _, hsplit, h, .blanks hblanks⟩
  cases h : bs.dropWhile (·.isBlank) with
  | nil => exact none_else (by rw [gap, h])
  | cons b rest =>
    by_cases hb : b = .ofChar ';'
    · -- the comment runs to the end of the line
      have hrest := (List.takeWhile_append_dropWhile (p := (!·.endsLine)) (l := rest)).symm
      have htext : ∀ x ∈ rest.takeWhile (!·.endsLine), x.endsLine = false := fun x hx => by
        simpa using List.mem_takeWhile_imp hx
      refine ⟨_, rest.dropWhile (!·.endsLine), ?_, ?_, .comment hblanks htext⟩
      · rw [List.append_assoc, List.cons_append, ← hrest, ← hb, ← h]
        exact hsplit
      · rw [gap, h, List.length_append, List.length_cons]
        dsimp only
        rw [if_pos hb]
        omega
    · exact none_else (by rw [gap, h]; exact if_neg hb)

/-- What a lexeme takes has no newline in it. -/
theorem newline_notMem_lexeme (left : Left) {b : Byte} (hb : b.isNewline = false)
    (rest : List Byte) :
    .newline ∉ (b :: rest).take (Lexeme.read left b rest).width := by
  have hne : Byte.newline ≠ b := by
    intro e
    rw [← e] at hb
    exact absurd hb (by decide)
  rw [Lexeme.width, List.take_succ_cons, List.mem_cons, not_or]
  refine ⟨hne, fun hm => ?_⟩
  obtain ⟨line, more, rfl, hline⟩ := List.eq_append_cons_of_mem (List.mem_of_mem_take hm)
  -- the lexeme is one of the line, and stays inside it
  rw [Lexeme.read_append_newline,
    List.take_append_of_le_length (Lexeme.extra_read_le left b line)] at hm
  exact hline (List.mem_of_mem_take hm)

end Cursor

/-! ## The tiling -/

/-- `Tiles bs n rest items`: behind `n` bytes of the source `bs` the rest of it is a gap,
the bytes of the first item, a gap, the bytes of the next, and so on to a last gap. -/
inductive Tiles (bs : List Byte) : Nat → List Byte → List Item → Prop where
  | done {n : Nat} {gap : List Byte} : Gap gap → Tiles bs n gap []
  | item {n : Nat} {gap own rest : List Byte} {i : Item} {items : List Item} :
      Gap gap → own ≠ [] →
      (i.isSep = true ∧ own = [.newline] ∨ i.isSep = false ∧ .newline ∉ own) →
      (Item.span i).start bs = n + gap.length →
      (Item.span i).stop bs = n + gap.length + own.length →
      (Item.span i).line = (bs.take (n + gap.length)).count .newline + 1 →
      Tiles bs (n + gap.length + own.length) rest items →
      Tiles bs n (gap ++ (own ++ rest)) (i :: items)

namespace Cursor

/-- An item takes the bytes of its place: a newline if it is a separator, and bytes of the
line otherwise. -/
theorem exists_own {c : Cursor} {done : List Byte} (h : c.Behind done) {b : Byte}
    {rest : List Byte} (hr : c.rest = b :: rest) :
    ∃ own, c.rest = own ++ (c.item b rest).2.rest ∧ own ≠ [] ∧
      (Item.isSep (c.item b rest).1 = true ∧ own = [.newline] ∨
        Item.isSep (c.item b rest).1 = false ∧ .newline ∉ own) ∧
      Item.span (c.item b rest).1 = c.span own.length ∧ (c.item b rest).2.Behind (done ++ own) := by
  have lexeme : b.isNewline = false →
      ∃ own, c.rest = own ++ (c.skip (Lexeme.read c.left b rest).width).rest ∧
        own ≠ [] ∧ .newline ∉ own ∧ own.length = (Lexeme.read c.left b rest).width ∧
        (c.skip (Lexeme.read c.left b rest).width).Behind (done ++ own) := by
    intro hb
    have hlen : (c.rest.take (Lexeme.read c.left b rest).width).length
        = (Lexeme.read c.left b rest).width := by
      have := Lexeme.extra_read_le c.left b rest
      rw [List.length_take, hr, List.length_cons, Lexeme.width]
      omega
    have hline : .newline ∉ c.rest.take (Lexeme.read c.left b rest).width := by
      rw [hr]
      exact newline_notMem_lexeme c.left hb rest
    refine ⟨_, (List.take_append_drop _ _).symm, ?_, hline, hlen, ?_⟩
    · rw [hr, Lexeme.width]
      exact List.cons_ne_nil _ _
    · have := h.skip hline
      rwa [hlen] at this
  rcases item_cases c b rest with ⟨hb, hi⟩ | ⟨hb, ⟨k, l, hk, hi⟩ | ⟨f, hi⟩⟩
  · have hb : b = .newline := by simpa [Byte.isNewline, Byte.newline] using hb
    rw [hi]
    refine ⟨[.newline], ?_, List.cons_ne_nil _ _, Or.inl ⟨rfl, rfl⟩, rfl, h.newline⟩
    rw [newline_rest, hr, hb]
    rfl
  · obtain ⟨own, hown, hne, hline, hlen, hnext⟩ := lexeme hb
    have hsep : Item.isSep (.ok ⟨k, l, c.span (Lexeme.read c.left b rest).width⟩) = false :=
      decide_eq_false (Kind.ne_of_isSeparator hk rfl)
    rw [hi]
    exact ⟨own, hown, hne, Or.inr ⟨hsep, hline⟩, by rw [hlen]; rfl, hnext⟩
  · obtain ⟨own, hown, hne, hline, hlen, hnext⟩ := lexeme hb
    rw [hi]
    exact ⟨own, hown, hne, Or.inr ⟨rfl, hline⟩, by rw [hlen]; rfl, hnext⟩

/-- A cursor moves over a gap. -/
theorem exists_skipGap {c : Cursor} {done : List Byte} (h : c.Behind done) :
    ∃ gap, Gap gap ∧ c.rest = gap ++ c.skipGap.rest ∧ c.skipGap.Behind (done ++ gap) := by
  obtain ⟨gap, rest, hr, hlen, hgap⟩ := exists_gap c.rest
  refine ⟨gap, hgap, ?_, ?_⟩
  · rw [skipGap, skip_rest, hlen, hr, List.drop_left]
  · rw [skipGap, hlen]
    exact h.skip hgap.newline_notMem

/-- **The items from a cursor on tile what is left.** -/
theorem tiles_items (c : Cursor) {done : List Byte} (h : c.Behind done) :
    Tiles (done ++ c.rest) done.length c.rest c.items := by
  obtain ⟨gap, hgap, hr, hskip⟩ := exists_skipGap h
  cases hleft : c.skipGap.rest with
  | nil =>
    rw [items_of_nil hleft, hr, hleft, List.append_nil]
    exact .done hgap
  | cons b rest =>
    have := length_item_skipGap_lt hleft
    obtain ⟨own, hown, hne, hkind, hspan, hnext⟩ := exists_own hskip hleft
    have ih := tiles_items (c.skipGap.item b rest).2 hnext
    rw [items_of_cons hleft]
    rw [hown] at hr
    generalize (c.skipGap.item b rest).1 = i at *
    generalize (c.skipGap.item b rest).2 = d at *
    have hall : done ++ c.rest = done ++ gap ++ (own ++ d.rest) := by
      rw [hr, List.append_assoc]
    rw [List.append_assoc, ← hall, List.length_append, List.length_append] at ih
    rw [show Tiles _ _ c.rest (i :: d.items) = Tiles _ _ (gap ++ (own ++ d.rest)) (i :: d.items) by
      rw [← hr]]
    refine .item hgap hne hkind ?_ ?_ ?_ ih
    · rw [hspan, hall, hskip.start_span, List.length_append]
    · rw [hspan, hall, hskip.stop_span, List.length_append]
    · rw [hspan, hall, ← List.length_append, List.take_left]
      exact hskip.line
termination_by c.rest.length

/-- The end stands behind all bytes. -/
theorem exists_endSpan (c : Cursor) {done : List Byte} (h : c.Behind done) :
    ∃ d : Cursor, d.Behind (done ++ c.rest) ∧ c.endSpan = d.span 0 := by
  obtain ⟨gap, _, hr, hskip⟩ := exists_skipGap h
  cases hleft : c.skipGap.rest with
  | nil =>
    rw [hleft, List.append_nil] at hr
    rw [hr, endSpan_of_nil hleft]
    exact ⟨_, hskip, rfl⟩
  | cons b rest =>
    have := length_item_skipGap_lt hleft
    obtain ⟨own, hown, _, _, _, hnext⟩ := exists_own hskip hleft
    obtain ⟨d, hd, hspan⟩ := exists_endSpan (c.skipGap.item b rest).2 hnext
    rw [hown, ← List.append_assoc] at hr
    rw [endSpan_of_cons hleft]
    refine ⟨d, ?_, hspan⟩
    rw [hr, ← List.append_assoc, ← List.append_assoc]
    exact hd
termination_by c.rest.length

end Cursor

/-! ## What a tiling says -/

/-- Whether the bytes of an item include the one at an offset. -/
def Item.covers (bs : List Byte) (k : Nat) (i : Item) : Prop :=
  (Item.span i).start bs ≤ k ∧ k < (Item.span i).stop bs

/-- An offset is in a comment: from a `;` up to it there is no item and no end of a line. -/
def InComment (bs : List Byte) (items : List Item) (k : Nat) : Prop :=
  ∃ j, j ≤ k ∧ bs[j]? = some (.ofChar ';') ∧
    ∀ l, j ≤ l → l ≤ k → (∀ i ∈ items, ¬i.covers bs l) ∧ ∀ b ∈ bs[l]?, b.endsLine = false

/-- A byte of a gap is blank, or a `;` stands before it in the gap and no end of a line
between. -/
theorem Gap.blank_or_comment {gap : List Byte} (h : Gap gap) {k : Nat} (hk : k < gap.length) :
    (∃ b, gap[k]? = some b ∧ b.isBlank = true) ∨
      ∃ j, j ≤ k ∧ gap[j]? = some (.ofChar ';') ∧
        ∀ l, j ≤ l → ∀ b ∈ gap[l]?, b.endsLine = false := by
  cases h with
  | blanks hb => exact Or.inl ⟨_, List.getElem?_eq_getElem hk, hb _ (List.getElem_mem hk)⟩
  | @comment blanks text hb ht =>
    rcases Nat.lt_or_ge k blanks.length with hlt | hge
    · refine Or.inl ⟨blanks[k], ?_, hb _ (List.getElem_mem hlt)⟩
      rw [List.getElem?_append_left hlt, List.getElem?_eq_getElem hlt]
    · refine Or.inr ⟨blanks.length, hge, ?_, fun l hl b hm => ?_⟩
      · rw [List.getElem?_append_right (Nat.le_refl _), Nat.sub_self]
        rfl
      · rw [List.getElem?_append_right hl] at hm
        rcases List.mem_cons.mp (List.mem_of_getElem? hm) with rfl | hm
        · decide
        · exact ht b hm

namespace Tiles

variable {bs rest : List Byte} {n : Nat} {items : List Item}

/-- Every item takes a byte. -/
theorem length_le (h : Tiles bs n rest items) : items.length ≤ rest.length := by
  induction h with
  | done _ => exact Nat.zero_le _
  | item _ hne _ _ _ _ _ ih =>
    have := List.length_pos_iff.mpr hne
    simp only [List.length_append, List.length_cons]
    omega

/-- Ranges are not empty, and lie where the tiling lies. -/
theorem range (h : Tiles bs n rest items) : ∀ i ∈ items,
    n ≤ (Item.span i).start bs ∧ (Item.span i).start bs < (Item.span i).stop bs ∧
      (Item.span i).stop bs ≤ n + rest.length := by
  induction h with
  | done _ => simp
  | item _ hne _ hstart hstop _ _ ih =>
    have := List.length_pos_iff.mpr hne
    simp only [List.length_append]
    intro i hi
    rcases List.mem_cons.mp hi with rfl | hi
    · omega
    · have := ih i hi
      omega

/-- Each range ends before the next begins. -/
theorem inOrder (h : Tiles bs n rest items) :
    items.Pairwise fun i j => (Item.span i).stop bs ≤ (Item.span j).start bs := by
  induction h with
  | done _ => exact .nil
  | item _ _ _ _ hstop _ htiles ih =>
    refine List.pairwise_cons.mpr ⟨fun j hj => ?_, ih⟩
    have := (htiles.range j hj).1
    omega

/-- A line number counts the newlines before it. -/
theorem line (h : Tiles bs n rest items) : ∀ i ∈ items,
    (Item.span i).line = (bs.take ((Item.span i).start bs)).count .newline + 1 := by
  induction h with
  | done _ => simp
  | item _ _ _ hstart _ hline _ ih =>
    intro i hi
    rcases List.mem_cons.mp hi with rfl | hi
    · rw [hstart]
      exact hline
    · exact ih i hi

/-- The separators are the newlines. -/
theorem separators (h : Tiles bs n rest items) :
    (items.filter Item.isSep).map (fun i => (Item.span i).start bs) = rest.idxsOf .newline n := by
  have without : ∀ {own : List Byte} {m : Nat}, .newline ∉ own → own.idxsOf .newline m = [] := by
    intro own m hn
    refine List.idxsOf_eq_nil_iff.mpr fun b hb => beq_false_of_ne ?_
    rintro rfl
    exact hn hb
  induction h with
  | done hgap => rw [without hgap.newline_notMem]; rfl
  | @item n gap own rest i items hgap _ hkind hstart _ _ _ ih =>
    rw [List.idxsOf_append, List.idxsOf_append, without hgap.newline_notMem, List.nil_append, ← ih]
    rcases hkind with ⟨hsep, rfl⟩ | ⟨hsep, hown⟩
    · rw [List.filter_cons_of_pos hsep, List.map_cons, hstart]
      rfl
    · rw [List.filter_cons_of_neg (by simp [hsep]), without hown]
      rfl

/-- What no item covers is blank or in a comment. -/
theorem between (h : Tiles bs n rest items) (hrest : bs.drop n = rest) {k : Nat} (hn : n ≤ k)
    (hk : k < bs.length) (hfree : ∀ i ∈ items, ¬i.covers bs k) :
    (∃ b, bs[k]? = some b ∧ b.isBlank = true) ∨
      ∃ j, n ≤ j ∧ j ≤ k ∧ bs[j]? = some (.ofChar ';') ∧
        ∀ l, j ≤ l → l ≤ k → (∀ i ∈ items, ¬i.covers bs l) ∧ ∀ b ∈ bs[l]?, b.endsLine = false := by
  -- the bytes of the gap in front
  have inGap : ∀ {m : Nat} {gap more : List Byte} {is : List Item}, Gap gap →
      bs.drop m = gap ++ more → m ≤ k → k < m + gap.length →
      (∀ l, l < m + gap.length → ∀ i ∈ is, ¬i.covers bs l) →
      (∃ b, bs[k]? = some b ∧ b.isBlank = true) ∨
        ∃ j, m ≤ j ∧ j ≤ k ∧ bs[j]? = some (.ofChar ';') ∧
          ∀ l, j ≤ l → l ≤ k → (∀ i ∈ is, ¬i.covers bs l) ∧ ∀ b ∈ bs[l]?, b.endsLine = false := by
    intro m gap more is hgap hdrop hm hlt hfront
    have get : ∀ {l}, m ≤ l → l < m + gap.length → bs[l]? = gap[l - m]? := by
      intro l hl hl'
      calc bs[l]? = (bs.drop m)[l - m]? := by rw [List.getElem?_drop, Nat.add_sub_cancel' hl]
        _ = gap[l - m]? := by rw [hdrop, List.getElem?_append_left (by omega)]
    rcases hgap.blank_or_comment (k := k - m) (by omega) with
      ⟨b, hb, hblank⟩ | ⟨j, hj, hsemi, hends⟩
    · exact Or.inl ⟨b, by rw [get hm hlt, hb], hblank⟩
    · refine Or.inr ⟨m + j, by omega, by omega, ?_, fun l hl hl' => ⟨hfront l (by omega), ?_⟩⟩
      · rw [get (by omega) (by omega), Nat.add_sub_cancel_left, hsemi]
      · rw [get (by omega) (by omega)]
        exact hends (l - m) (by omega)
  induction h with
  | @done n gap hgap =>
    have hlen := congrArg List.length hrest
    rw [List.length_drop] at hlen
    exact inGap hgap (hrest.trans (List.append_nil _).symm) hn (by omega) (by simp)
  | @item n gap own rest i items hgap _ _ hstart hstop _ htiles ih =>
    rcases Nat.lt_or_ge k (n + gap.length) with hlt | hge
    · refine inGap hgap hrest hn hlt fun l hl j hj hc => ?_
      have hfirst : n + gap.length ≤ (Item.span j).start bs := by
        rcases List.mem_cons.mp hj with rfl | hj
        · exact Nat.le_of_eq hstart.symm
        · exact Nat.le_trans (Nat.le_add_right _ _) (htiles.range j hj).1
      exact absurd (Nat.le_trans hfirst hc.1) (by omega)
    · -- not in the first item, so behind it
      have hown : n + gap.length + own.length ≤ k := by
        rcases Nat.lt_or_ge k (n + gap.length + own.length) with hlt | hge'
        · exact absurd ⟨by omega, by omega⟩ (hfree i List.mem_cons_self)
        · exact hge'
      have hbehind : bs.drop (n + gap.length + own.length) = rest := by
        rw [← List.drop_drop, ← List.drop_drop, hrest, List.drop_left, List.drop_left]
      rcases ih hbehind hown fun j hj => hfree j (List.mem_cons_of_mem _ hj) with
        hb | ⟨j, hj, hjk, hsemi, hends⟩
      · exact Or.inl hb
      · refine Or.inr ⟨j, by omega, hjk, hsemi,
          fun l hl hl' => ⟨fun x hx => ?_, (hends l hl hl').2⟩⟩
        rcases List.mem_cons.mp hx with rfl | hx
        · intro hc
          have := hc.2
          omega
        · exact (hends l hl hl').1 x hx

end Tiles

/-- **The items of a source tile it.** -/
theorem Scan.tiles_ofSource (source : String) :
    Tiles (Utf8.bytes source) 0 (Utf8.bytes source) (ofSource source).items := by
  rw [ofSource_eq]
  exact (Cursor.ofSource source).tiles_items (Cursor.Behind.ofSource source)

/-! ## Calls of the scanner -/

namespace Cursor

/-- The cursor after `k` calls. -/
def after (c : Cursor) : Nat → Cursor
  | 0 => c
  | k + 1 => c.next.2.after k

/-- What a call returns that comes after `k` others. -/
def call (c : Cursor) (k : Nat) : Item := (c.after k).next.1

theorem next_of_nil {c : Cursor} (h : c.skipGap.rest = []) :
    c.next = (.ok (.atEof c.endSpan), c.skipGap) := by
  rw [endSpan_of_nil h, next, h]

theorem next_of_cons {c : Cursor} {b : Byte} {rest : List Byte} (h : c.skipGap.rest = b :: rest) :
    c.next = c.skipGap.item b rest := by
  rw [next, h]

/-- At the end there is no gap. -/
theorem skipGap_of_nil {c : Cursor} (h : c.rest = []) : c.skipGap = c :=
  skipGap_of_gap (by rw [h]; rfl)

/-- The calls before the end return the items, and each takes a byte at least. -/
theorem call_eq_getElem (c : Cursor) (k : Nat) (hk : k < c.items.length) :
    c.call k = c.items[k] ∧ (c.after (k + 1)).rest.length < (c.after k).rest.length := by
  induction k generalizing c with
  | zero =>
    cases h : c.skipGap.rest with
    | nil => simp [items_of_nil h] at hk
    | cons b rest =>
      simp only [call, after, next_of_cons h, items_of_cons h, List.getElem_cons_zero]
      exact ⟨trivial, length_item_skipGap_lt h⟩
  | succ k ih =>
    cases h : c.skipGap.rest with
    | nil => simp [items_of_nil h] at hk
    | cons b rest =>
      rw [items_of_cons h, List.length_cons] at hk
      simp only [call, after, next_of_cons h, items_of_cons h, List.getElem_cons_succ]
      exact ih _ (Nat.lt_of_succ_lt_succ hk)

/-- At the end every call returns the end of the input. -/
theorem call_of_nil (k : Nat) {c : Cursor} (h : c.skipGap.rest = []) :
    c.call k = .ok (.atEof c.endSpan) ∧ (c.after (k + 1)).rest = [] := by
  induction k generalizing c with
  | zero =>
    simp only [call, after, next_of_nil h]
    exact ⟨trivial, h⟩
  | succ k ih =>
    have hagain : c.skipGap.skipGap = c.skipGap := skipGap_of_nil h
    have hspan : c.skipGap.endSpan = c.endSpan := by
      rw [endSpan_of_nil h, endSpan_of_nil (by rw [hagain, h]), hagain]
    simp only [call, after, next_of_nil h]
    rw [← hspan]
    exact ih (by rw [hagain, h])

/-- Behind the items every call returns the end of the input. -/
theorem call_of_length_le (c : Cursor) (k : Nat) (hk : c.items.length ≤ k) :
    c.call k = .ok (.atEof c.endSpan) ∧ (c.after (k + 1)).rest = [] := by
  induction k generalizing c with
  | zero =>
    cases h : c.skipGap.rest with
    | nil => exact call_of_nil 0 h
    | cons b rest => simp [items_of_cons h] at hk
  | succ k ih =>
    cases h : c.skipGap.rest with
    | nil => exact call_of_nil (k + 1) h
    | cons b rest =>
      rw [items_of_cons h, List.length_cons] at hk
      have := ih (c.skipGap.item b rest).2 (Nat.le_of_succ_le_succ hk)
      rw [endSpan_of_cons h]
      simpa only [call, after, next_of_cons h] using this

end Cursor

/-- **The scanner accounts for every byte of a source.** Its calls return the items of the
scan, each of which takes a byte at least, and from then on the end of the input. The
ranges of the items are not empty and follow each other; what lies between them is blank
or in a comment; the separators among them are the newlines; and a line number counts
the newlines before it. With lines counted in 32 bits, this is about sources of fewer than
2^32 lines. -/
theorem scan_covers (source : String) :
    let bs := Utf8.bytes source
    let c := Cursor.ofSource source
    let items := (Scan.ofSource source).items
    let finish := (Scan.ofSource source).endSpan
    (items.length ≤ bs.length ∧
      (∀ k (hk : k < items.length), c.call k = items[k] ∧
        (∀ t, items[k] = .ok t → t.kind ≠ .eof) ∧
        (c.after (k + 1)).rest.length < (c.after k).rest.length) ∧
      ∀ k, items.length ≤ k → c.call k = .ok (.atEof finish) ∧ (c.after (k + 1)).rest = []) ∧
    (∀ i ∈ items, (Item.span i).start bs < (Item.span i).stop bs ∧
      (Item.span i).stop bs ≤ bs.length) ∧
    (items.Pairwise fun i j => (Item.span i).stop bs ≤ (Item.span j).start bs) ∧
    (∀ k (hk : k < bs.length), (∀ i ∈ items, ¬i.covers bs k) →
      bs[k].isBlank = true ∨ InComment bs items k) ∧
    (items.filter Item.isSep).map (fun i => (Item.span i).start bs) = bs.idxsOf .newline ∧
    (∀ i ∈ items,
      (Item.span i).line = (bs.take ((Item.span i).start bs)).count .newline + 1) ∧
    finish.start bs = bs.length ∧ finish.line = bs.count .newline + 1 := by
  intro bs c items finish
  have hscan := Scan.ofSource_eq source
  have hitems : items = c.items := congrArg Scan.items hscan
  have hfinish : finish = c.endSpan := congrArg Scan.endSpan hscan
  have tiles : Tiles bs 0 bs items := by
    rw [hitems]
    exact c.tiles_items (Cursor.Behind.ofSource source)
  obtain ⟨d, hd, hspan⟩ := c.exists_endSpan (Cursor.Behind.ofSource source)
  refine ⟨⟨tiles.length_le, fun k hk => ?_, fun k hk => ?_⟩, fun i hi => ?_, tiles.inOrder,
    fun k hk hfree => ?_, tiles.separators, tiles.line, ?_, ?_⟩
  · obtain ⟨hcall, hless⟩ := c.call_eq_getElem k (hitems ▸ hk)
    refine ⟨?_, fun t ht => ?_, hless⟩
    · rw [hcall]
      simp only [hitems]
    · refine c.kind_ne_eof_of_mem_items (t := t) ?_
      rw [← ht, ← hitems]
      exact List.getElem_mem hk
  · rw [hfinish]
    exact c.call_of_length_le k (hitems ▸ hk)
  · obtain ⟨_, hlt, hle⟩ := tiles.range i hi
    rw [Nat.zero_add] at hle
    exact ⟨hlt, hle⟩
  · rcases tiles.between rfl (Nat.zero_le k) hk hfree with ⟨b, hb, hblank⟩ | ⟨j, _, hj⟩
    · rw [List.getElem?_eq_getElem hk] at hb
      rw [Option.some.inj hb]
      exact Or.inl hblank
    · exact Or.inr ⟨j, hj⟩
  · rw [hfinish, hspan]
    have := hd.start_span [] 0
    rwa [List.append_nil] at this
  · rw [hfinish, Cursor.line_endSpan, Nat.add_comm]
    rfl

end AsmExpand
