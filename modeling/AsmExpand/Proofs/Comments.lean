import AsmExpand.Proofs.Rendering
import Mathlib.Data.Bool.AllAny
import Mathlib.Data.List.DropRight

/-!
# Comments

A `;` outside of quotes goes on with no lexeme and makes no operator of two characters, as
the end of a line does not. So the tokens before a comment are those of the line without it,
and the gap behind them takes the comment in (`Cursor.items_append_comment`).

It does not always take all of it. A comment stops before a NUL byte, and from there on it is
scanned like any other text. So a comment can be left out **if and only if no NUL character
is in it** (`scan_comment_iff`).
-/

namespace AsmExpand

/-- What an item says, its place apart: a kind and a value, or the message of a fault. -/
def Item.reading : Item → Except String (Kind × Option Literal)
  | .ok t => .ok t.reading
  | .error e => .error e.message

/-- What a scan says, places apart. -/
def Scan.readings (s : Scan) : List (Except String (Kind × Option Literal)) :=
  s.items.map Item.reading

/-- The characters behind the last newline. -/
def lastLine (source : String) : List Char := source.toList.rtakeWhile (· ≠ '\n')

/-- A text from its first NUL character on. -/
def fromNul (source : String) : String := String.ofList (source.toList.dropWhile (· ≠ '\x00'))

/-- Either there is no NUL character, or the text from it on begins with one. -/
theorem fromNul_cases (source : String) : '\x00' ∉ source.toList ∧ fromNul source = "" ∨
    '\x00' ∈ source.toList ∧ ∃ more, fromNul source = "\x00" ++ more := by
  unfold fromNul
  cases h : source.toList.dropWhile (· ≠ '\x00') with
  | nil =>
    refine Or.inl ⟨fun hmem => ?_, rfl⟩
    simpa using List.dropWhile_eq_nil_iff.mp h _ hmem
  | cons x more =>
    have hx := List.head?_dropWhile_not (· ≠ '\x00') source.toList
    rw [h] at hx
    have hx : x = '\x00' := by simpa using hx
    refine Or.inr ⟨hx ▸ (List.dropWhile_sublist _).mem (h ▸ List.mem_cons_self),
      String.ofList more, ?_⟩
    rw [hx, ← List.singleton_append, String.ofList_append]

/-- A text is complete lines and the last one. -/
theorem exists_lastLine {source : String} {ps : List Char} (h : ∀ x ∈ lastLine source, x ∉ ps) :
    ∃ lines line, source = lines ++ line ∧ (lines = "" ∨ ∃ most, lines = most ++ "\n") ∧
      ∀ x ∈ line.toList, x ∉ '\n' :: ps := by
  refine ⟨String.ofList (source.toList.rdropWhile (· ≠ '\n')), String.ofList (lastLine source),
    ?_, ?_, fun x hx => ?_⟩
  · rw [← String.ofList_append, lastLine, List.rdropWhile_append_rtakeWhile, String.ofList_toList]
  · rcases List.eq_nil_or_concat' (source.toList.rdropWhile (· ≠ '\n')) with
      hnil | ⟨most, x, hlines⟩
    · rw [hnil]
      exact Or.inl rfl
    · have hx := List.rdropWhile_last_not (· ≠ '\n') source.toList (by rw [hlines]; simp)
      simp only [hlines, List.getLast_append_singleton] at hx
      have hx : x = '\n' := by simpa using hx
      refine Or.inr ⟨String.ofList most, ?_⟩
      rw [hlines, hx, String.ofList_append]
  · rw [String.toList_ofList] at hx
    rw [List.mem_cons, not_or]
    exact ⟨by simpa using List.mem_rtakeWhile_imp hx, h x hx⟩

/-! ## Bytes -/

namespace Byte

theorem semicolon_stops : Stops (.ofChar ';') := ⟨by decide, by decide⟩

/-- The bytes before which a comment stops. -/
theorem endsLine_iff (b : Byte) : b.endsLine = true ↔ b.toChar = '\n' ∨ b.toChar = '\x00' := by
  rw [endsLine, Bool.or_eq_true, isNewline_iff, beq_iff_eq, ← UInt8.toNat_inj]
  simp only [← Char.toNat_inj, toNat_toChar]
  rfl

end Byte

namespace Utf8

/-- The ASCII bytes of a text are characters of it. -/
theorem toChar_mem_of_mem_bytes {cs : List Char} {b : Byte} (h : b ∈ bytes (String.ofList cs))
    (hb : b.toNat < 128) : b.toChar ∈ cs := by
  rw [bytes_ofList, List.mem_flatMap] at h
  obtain ⟨c, hc, hbc⟩ := h
  rwa [toChar_of_mem_encode hbc hb]

/-- The bytes of a line from the first at which a comment stops are those of the characters
from the first NUL character on. -/
theorem bytes_fromNul {source : String} (h : '\n' ∉ source.toList) :
    bytes (fromNul source) = (bytes source).dropWhile (fun b => !Byte.endsLine b) := by
  rw [fromNul, bytes_ofList, bytes]
  generalize source.toList = cs at h
  induction cs with
  | nil => rfl
  | cons c cs ih =>
    rw [List.mem_cons, not_or] at h
    by_cases hc : c = '\x00'
    · rw [hc, List.dropWhile_cons_of_neg (by decide), List.flatMap_cons]
      rfl
    · have hplain : ∀ b ∈ String.utf8EncodeChar c, (!Byte.endsLine b) = true := by
        intro b hb
        rw [Bool.not_eq_true', Bool.eq_false_iff, Ne, Byte.endsLine_iff]
        intro hends
        have hascii : b.toNat < 128 := by
          rw [← Byte.toNat_toChar]
          rcases hends with e | e <;> rw [e] <;> decide
        rw [toChar_of_mem_encode hb hascii] at hends
        exact hends.elim (fun e => h.1 e.symm) hc
      rw [List.dropWhile_cons_of_pos (by simpa using hc), List.flatMap_cons,
        List.dropWhile_append_of_pos hplain, ih h.2]

end Utf8

/-- Bytes of one line with no quote and no comment in them. -/
def Bare (line : List Byte) : Prop := ∀ b ∈ line, b.toChar ∉ ['\n', '"', '\'', ';']

theorem Bare.of_text {cs : List Char} (h : ∀ c ∈ cs, c ∉ ['\n', '"', '\'', ';']) :
    Bare (Utf8.bytes (String.ofList cs)) := by
  intro b hb hmem
  have hascii : b.toNat < 128 := by
    rw [← Byte.toNat_toChar]
    simp only [List.mem_cons, List.not_mem_nil, or_false] at hmem
    rcases hmem with e | e | e | e <;> rw [e] <;> decide
  exact h _ (Utf8.toChar_mem_of_mem_bytes hb hascii) hmem

/-! ## Cursors -/

namespace Cursor

/-- Behind the blanks of a bare line no comment begins. -/
theorem ne_semicolon_of_bare {line more : List Byte} {b : Byte} (h : Bare line)
    (hd : line.dropWhile (·.isBlank) = b :: more) : b ≠ .ofChar ';' := by
  rintro rfl
  exact h _ ((List.dropWhile_sublist _).mem (hd ▸ List.mem_cons_self)) (by decide)

theorem gap_of_bare {line : List Byte} (h : Bare line) :
    gap line = (line.takeWhile (·.isBlank)).length := by
  unfold gap
  cases hd : line.dropWhile (·.isBlank) with
  | nil => rfl
  | cons b more => exact if_neg (ne_semicolon_of_bare h hd)

/-- A gap that goes to the end of a line takes in the comment behind the line, up to where a
comment stops. -/
theorem gap_append_comment {line : List Byte} (h : Bare line) (comment : List Byte) :
    gap (line ++ .ofChar ';' :: comment) = gap line ∧ gap line < line.length ∨
      gap line = line.length ∧ gap (line ++ .ofChar ';' :: comment)
        = line.length + 1 + (comment.takeWhile (!·.endsLine)).length := by
  have hstop : Byte.isBlank (.ofChar ';') = false := by decide
  have hsplit :=
    congrArg List.length (List.takeWhile_append_dropWhile (p := (·.isBlank)) (l := line))
  rw [List.length_append] at hsplit
  rw [gap_of_bare h]
  unfold gap
  rw [takeWhile_append_of_stop hstop, List.dropWhile_append]
  cases hd : line.dropWhile (·.isBlank) with
  | nil =>
    rw [hd, List.length_nil, Nat.add_zero] at hsplit
    rw [List.isEmpty_nil, if_pos rfl, List.dropWhile_cons_of_neg (by simp [hstop])]
    dsimp only
    rw [if_pos rfl, hsplit]
    exact Or.inr ⟨rfl, rfl⟩
  | cons b more =>
    rw [hd, List.length_cons] at hsplit
    rw [List.isEmpty_cons, if_neg Bool.false_ne_true, List.cons_append]
    dsimp only
    rw [if_neg (ne_semicolon_of_bare h hd)]
    exact Or.inl ⟨rfl, by omega⟩

/-- Behind the bytes of a comment stands what it stops before. -/
theorem drop_comment (line comment : List Byte) :
    (line ++ .ofChar ';' :: comment).drop
        (line.length + 1 + (comment.takeWhile (!·.endsLine)).length)
      = comment.dropWhile (!·.endsLine) := by
  have hsplit : line ++ .ofChar ';' :: comment
      = (line ++ .ofChar ';' :: comment.takeWhile (!·.endsLine))
        ++ comment.dropWhile (!·.endsLine) := by
    rw [List.append_assoc, List.cons_append, List.takeWhile_append_dropWhile]
  rw [hsplit]
  refine List.drop_left' ?_
  rw [List.length_append, List.length_cons, Nat.add_right_comm, Nat.add_assoc]

/-- Behind a comment no gap is next. -/
theorem gap_dropWhile_comment (comment : List Byte) :
    gap (comment.dropWhile (!·.endsLine)) = 0 := by
  have hends := List.head?_dropWhile_not (!·.endsLine) comment
  cases h : comment.dropWhile (!·.endsLine) with
  | nil => rfl
  | cons b more =>
    have hb : b.toNat = 10 ∨ b.toNat = 0 := by
      rw [h] at hends
      have hends : b.endsLine = true := by simpa using hends
      rwa [Byte.endsLine, Bool.or_eq_true, Byte.isNewline_iff, beq_iff_eq, ← UInt8.toNat_inj]
        at hends
    have hvisible : b.isBlank = false ∧ b ≠ .ofChar ';' := by
      rw [Bool.eq_false_iff, Ne, Byte.isBlank_iff, Ne, ← UInt8.toNat_inj]
      change ¬((b.toNat = 32 ∨ b.toNat = 9) ∨ b.toNat = 13) ∧ ¬b.toNat = 59
      omega
    simp [gap, hvisible]

theorem items_skipGap {c : Cursor} (h : gap c.skipGap.rest = 0) : c.skipGap.items = c.items := by
  have hskip := skipGap_of_gap h
  cases hr : c.skipGap.rest with
  | nil => rw [items_of_nil hr, items_of_nil (by rw [hskip, hr])]
  | cons b rest => rw [items_of_cons hr, items_of_cons (by rw [hskip, hr]), hskip]

/-- **A comment behind a line is scanned from where it stops**, and no sooner. -/
theorem items_append_comment (c : Cursor) (hc : Bare c.rest) (comment : List Byte) :
    ∃ d : Cursor, d.rest = comment.dropWhile (!·.endsLine) ∧
      (c.append (.ofChar ';' :: comment)).items = c.items ++ d.items := by
  rcases gap_append_comment hc comment with ⟨hgap, hlt⟩ | ⟨hgap, hgap'⟩
  · cases h : c.skipGap.rest with
    | nil =>
      rw [skipGap, skip_rest, List.drop_eq_nil_iff] at h
      omega
    | cons b line =>
      have := length_item_skipGap_lt h
      have hskip : (c.append (.ofChar ';' :: comment)).skipGap
          = c.skipGap.append (.ofChar ';' :: comment) := skipGap_append hgap
      have h' : (c.append (.ofChar ';' :: comment)).skipGap.rest
          = b :: (line ++ .ofChar ';' :: comment) := by
        rw [hskip, append, h]
        rfl
      have hb := hc b (List.mem_of_mem_drop (h ▸ List.mem_cons_self))
      simp only [List.mem_cons, List.not_mem_nil, or_false, not_or] at hb
      have hread := Lexeme.read_append_stop Byte.semicolon_stops c.skipGap.left (b := b)
        (by simp [hb]) line comment
      have hrest : Bare (c.skipGap.item b line).2.rest :=
        fun x hx => hc x (List.mem_of_mem_drop (mem_rest_of_mem_item hx))
      obtain ⟨d, hd, hitems⟩ := items_append_comment (c.skipGap.item b line).2 hrest comment
      refine ⟨d, hd, ?_⟩
      rw [items_of_cons h', hskip, item_append h hread, items_of_cons h, hitems]
      rfl
  · -- only blanks are left of the line
    have hnil : c.skipGap.rest = [] := by rw [skipGap, skip_rest, hgap, List.drop_length]
    have hd : (c.append (.ofChar ';' :: comment)).skipGap.rest
        = comment.dropWhile (!·.endsLine) := by
      rw [skipGap, skip_rest, append, hgap', drop_comment]
    refine ⟨_, hd, ?_⟩
    rw [items_skipGap (by rw [hd, gap_dropWhile_comment]), items_of_nil hnil, List.nil_append]
termination_by c.rest.length

/-! ### Where a cursor stands -/

/-- What is read does not depend on where on which line a cursor stands. -/
theorem item_congr {c d : Cursor} (hr : c.rest = d.rest) (hl : c.left = d.left) (b : Byte)
    (rest : List Byte) : Item.reading (c.item b rest).1 = Item.reading (d.item b rest).1 ∧
      (c.item b rest).2.rest = (d.item b rest).2.rest ∧
      (c.item b rest).2.left = (d.item b rest).2.left := by
  unfold item
  split
  · exact ⟨rfl, congrArg List.tail hr, rfl⟩
  · rw [hl]
    dsimp only
    split
    · exact ⟨rfl, by rw [skip, skip, hr], by rw [skip, skip, hr, hl]⟩
    · exact ⟨rfl, by rw [skip, skip, hr], by rw [skip, skip, hr, hl]⟩

theorem readings_congr {c d : Cursor} (hr : c.rest = d.rest) (hl : c.left = d.left) :
    c.items.map Item.reading = d.items.map Item.reading := by
  have hskip : c.skipGap.rest = d.skipGap.rest := by rw [skipGap, skipGap, skip, skip, hr]
  have hleft : c.skipGap.left = d.skipGap.left := by rw [skipGap, skipGap, skip, skip, hr, hl]
  cases h : c.skipGap.rest with
  | nil => rw [items_of_nil h, items_of_nil (hskip.symm.trans h)]
  | cons b rest =>
    have := length_item_skipGap_lt h
    obtain ⟨hitem, hrest, hleft⟩ := item_congr hskip hleft b rest
    rw [items_of_cons h, items_of_cons (hskip.symm.trans h), List.map_cons, List.map_cons, hitem,
      readings_congr hrest hleft]
termination_by c.rest.length

/-- Behind a NUL byte, which is a fault, nothing to the left of it matters. -/
theorem readings_of_nul {c : Cursor} {rest : List Byte} (h : c.rest = 0 :: rest) :
    c.items.map Item.reading = .error ScanFault.illegalCharacter.message ::
      (items { rest := rest, left := { mark := some 0 } }).map Item.reading := by
  have hskip : c.skipGap = c := skipGap_of_gap (by rw [h]; rfl)
  have hitem : c.item 0 rest
      = (.error ⟨ScanFault.illegalCharacter.message, c.span 1⟩, c.skip 1) := rfl
  have hleft : (c.skip 1).left = { mark := some 0 } := by
    rw [skip, h]
    rfl
  rw [items_of_cons (by rw [hskip, h]), hskip, hitem, List.map_cons,
    readings_congr (c := c.skip 1) (d := { rest := rest, left := { mark := some 0 } })
      (by rw [skip_rest, h]; rfl) hleft]
  rfl

end Cursor

/-! ## Sources -/

namespace Scan

theorem readings_ofSource (source : String) :
    (ofSource source).readings = (Cursor.ofSource source).items.map Item.reading := by
  rw [readings, ofSource_eq]

@[simp] theorem readings_ofSource_empty : (ofSource "").readings = [] := by
  rw [readings, items_ofSource_empty, List.map_nil]

/-- A newline parts a source into two that are read for themselves. -/
theorem readings_newline (lines rest : String) :
    (ofSource (lines ++ "\n" ++ rest)).readings
      = (ofSource lines).readings ++ .ok (.sep, none) :: (ofSource rest).readings := by
  rw [readings_ofSource, readings_ofSource, readings_ofSource, ofSource_newline_append,
    (Cursor.scan_followed _ _).1, List.map_append, List.map_cons,
    Cursor.readings_congr (c := Cursor.below _ _) (d := Cursor.ofSource rest) rfl rfl]
  rfl

/-- A line is read apart from what follows its end. -/
theorem readings_append_line (line : String) {rest : String}
    (h : rest = "" ∨ ∃ more, rest = "\n" ++ more) :
    (ofSource (line ++ rest)).readings = (ofSource line).readings ++ (ofSource rest).readings := by
  rcases h with rfl | ⟨more, rfl⟩
  · rw [String.append_empty, readings_ofSource_empty, List.append_nil]
  · have hrest := readings_newline "" more
    rw [String.empty_append, readings_ofSource_empty, List.nil_append] at hrest
    rw [← String.append_assoc, readings_newline, hrest]

/-- Complete lines are read apart from what follows them. -/
theorem readings_lines_append {lines : String} (h : lines = "" ∨ ∃ most, lines = most ++ "\n")
    (rest : String) : (ofSource (lines ++ rest)).readings
      = (ofSource lines).readings ++ (ofSource rest).readings := by
  rcases h with rfl | ⟨most, rfl⟩
  · rw [String.empty_append, readings_ofSource_empty, List.nil_append]
  · have hlines := readings_newline most ""
    rw [String.append_empty, readings_ofSource_empty] at hlines
    rw [readings_newline, hlines, List.append_assoc]
    rfl

theorem readings_nul (source : String) : (ofSource ("\x00" ++ source)).readings
    = .error ScanFault.illegalCharacter.message ::
      (Cursor.items { rest := Utf8.bytes source, left := { mark := some 0 } }).map
        Item.reading := by
  rw [readings_ofSource]
  exact Cursor.readings_of_nul (Utf8.bytes_append _ _)

/-- **A comment behind a line without quotes is read from its first NUL character on**, as if
a source began there. -/
theorem readings_comment {line comment : String}
    (hline : ∀ c ∈ line.toList, c ∉ ['\n', '"', '\'', ';']) (hcomment : '\n' ∉ comment.toList) :
    (ofSource (line ++ ";" ++ comment)).readings
      = (ofSource line).readings ++ (ofSource (fromNul comment)).readings := by
  have hbare : Bare (Cursor.ofSource line).rest := by
    have := Bare.of_text hline
    rwa [String.ofList_toList] at this
  have hsource : Cursor.ofSource (line ++ ";" ++ comment)
      = (Cursor.ofSource line).append (.ofChar ';' :: Utf8.bytes comment) := by
    rw [Cursor.ofSource, Utf8.bytes_append, Utf8.bytes_append, List.append_assoc]
    rfl
  obtain ⟨d, hd, hitems⟩ := Cursor.items_append_comment _ hbare (Utf8.bytes comment)
  rw [← Utf8.bytes_fromNul hcomment] at hd
  have hstopped : d.items.map Item.reading = (ofSource (fromNul comment)).readings := by
    rcases fromNul_cases comment with ⟨_, h⟩ | ⟨_, more, h⟩
    · rw [h] at hd ⊢
      rw [readings_ofSource_empty,
        Cursor.items_of_nil (by rw [Cursor.skipGap, Cursor.skip_rest, hd]; rfl), List.map_nil]
    · rw [h] at hd ⊢
      rw [readings_nul, Cursor.readings_of_nul (hd.trans (Utf8.bytes_append _ _))]
      rfl
  rw [readings_ofSource, readings_ofSource, hsource, hitems, List.map_append, hstopped]

/-- Something is read from a NUL character on. -/
theorem readings_fromNul_eq_nil_iff (comment : String) :
    (ofSource (fromNul comment)).readings = [] ↔ '\x00' ∉ comment.toList := by
  rcases fromNul_cases comment with ⟨hnone, h⟩ | ⟨hsome, more, h⟩
  · rw [h]
    exact iff_of_true readings_ofSource_empty hnone
  · rw [h, readings_nul]
    exact iff_of_false (List.cons_ne_nil _ _) (not_not_intro hsome)

end Scan

/-- **A comment can be left out if and only if it has no NUL character.** In any case what is
read is what stands before the comment, the comment from its first NUL character on, and what
stands behind. -/
theorem scan_comment_iff {p c r : String} (hp : ∀ x ∈ lastLine p, x ∉ ['"', '\'', ';'])
    (hc : '\n' ∉ c.toList) (hr : r = "" ∨ ∃ more, r = "\n" ++ more) :
    let readings (source : String) := (Scan.ofSource source).readings
    (readings (p ++ ";" ++ c ++ r) = readings (p ++ r) ↔ '\x00' ∉ c.toList) ∧
      readings (p ++ ";" ++ c ++ r) = readings p ++ readings (fromNul c) ++ readings r ∧
      readings (p ++ r) = readings p ++ readings r := by
  intro readings
  obtain ⟨lines, line, rfl, hlines, hline⟩ := exists_lastLine hp
  have hcommented : readings (lines ++ line ++ ";" ++ c ++ r)
      = readings (lines ++ line) ++ readings (fromNul c) ++ readings r := by
    have hsource : lines ++ line ++ ";" ++ c = lines ++ (line ++ ";" ++ c) := by
      simp only [String.append_assoc]
    dsimp only [readings]
    rw [Scan.readings_append_line _ hr, hsource, Scan.readings_lines_append hlines,
      Scan.readings_lines_append hlines, Scan.readings_comment hline hc]
    simp only [List.append_assoc]
  have hplain : readings (lines ++ line ++ r) = readings (lines ++ line) ++ readings r :=
    Scan.readings_append_line _ hr
  refine ⟨?_, hcommented, hplain⟩
  rw [hcommented, hplain, List.append_left_inj, List.append_right_eq_self]
  exact Scan.readings_fromNul_eq_nil_iff c

/-- Quotes in a line above do not matter, and neither do quotes and a `;` in the comment. -/
theorem scan_comment_quotes :
    let readings (source : String) := (Scan.ofSource source).readings
    let p := "x = 'a'\nlda #1"
    let c := " it's \"5\"; not \"6\""
    (∀ x ∈ lastLine p, x ∉ ['"', '\'', ';']) ∧ '\n' ∉ c.toList ∧ '\x00' ∉ c.toList ∧
      readings (p ++ ";" ++ c ++ "\nrts") = readings (p ++ "\nrts") := by
  intro readings p c
  have hp : ∀ x ∈ lastLine p, x ∉ ['"', '\'', ';'] := List.all_iff_forall_prop.mp (by decide)
  have hc : '\n' ∉ c.toList := by decide
  have hnul : '\x00' ∉ c.toList := by decide
  exact ⟨hp, hc, hnul, (scan_comment_iff hp hc (Or.inr ⟨"rts", rfl⟩)).1.mpr hnul⟩

/-- What stands behind a NUL character in a comment is read. -/
theorem scan_comment_nul :
    let readings (source : String) := (Scan.ofSource source).readings
    (∀ x ∈ lastLine "a", x ∉ ['"', '\'', ';']) ∧ '\n' ∉ "\x00b".toList ∧
      readings ("a" ++ ";" ++ "\x00b" ++ "") = [.ok (.ident, some (.text "a")),
        .error "Illegal character", .ok (.ident, some (.text "b"))] ∧
      readings ("a" ++ "") = [.ok (.ident, some (.text "a"))] ∧
      readings ("a" ++ ";" ++ "\x00b" ++ "") ≠ readings ("a" ++ "") := by
  intro readings
  have hcommented : readings ("a" ++ ";" ++ "\x00b" ++ "") = [.ok (.ident, some (.text "a")),
      .error "Illegal character", .ok (.ident, some (.text "b"))] := by decide +kernel
  have hplain : readings ("a" ++ "") = [.ok (.ident, some (.text "a"))] := by decide +kernel
  refine ⟨List.all_iff_forall_prop.mp (by decide), by decide, hcommented, hplain, ?_⟩
  rw [hcommented, hplain]
  decide

end AsmExpand
