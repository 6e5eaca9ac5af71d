import AsmExpand.Diagnostic.Basic
import AsmExpand.Proofs.Rendering

/-!
# Carriage returns before newlines

A carriage return is blank, and it belongs to no class of bytes that a lexeme runs over. So
one at the end of a line goes into the gap there, or into the comment, and no token notices.
Only what runs to the end of the line without an end of its own takes the carriage return
with it: a quoted constant that is left open, and the rest of the line behind a faulty
escape. That is the same fault on both sides, one byte longer (`Lexeme.read_append_return`).

A scan is followed line by line. Behind a carriage return the separator stands one column
further right, and the next line starts as it would without (`Scan.ofSource_withReturns`).
-/

namespace AsmExpand

/-- The byte that some put before a newline. -/
def Byte.carriageReturn : Byte := .ofChar '\r'

theorem Byte.carriageReturn_stops : carriageReturn.Stops := ⟨by decide, by decide⟩

/-- The text with a carriage return before each newline. -/
def withReturns (source : String) : String :=
  String.ofList (source.toList.flatMap fun c => if c = '\n' then ['\r', '\n'] else [c])

/-- The same fault, the text of an open string apart. -/
def ScanFault.Alike (f g : ScanFault) : Prop :=
  g = f ∨ ∃ read read', f = .unterminated read ∧ g = .unterminated read'

/-- The same cause, the text of an open string apart. -/
def Cause.Alike (c d : Cause) : Prop :=
  d = c ∨ ∃ read read', c = .malformed ("Unterminated string: " ++ read) ∧
    d = .malformed ("Unterminated string: " ++ read')

theorem ScanFault.Alike.cause {f g : ScanFault} (h : f.Alike g) :
    Cause.Alike (.malformed f.message) (.malformed g.message) := by
  rcases h with rfl | ⟨read, read', rfl, rfl⟩
  · exact Or.inl rfl
  · exact Or.inr ⟨read, read', rfl, rfl⟩

/-- What runs over all bytes runs over one more, and otherwise stops where it did. -/
theorem takeWhile_append_singleton {p : Byte → Bool} {y : Byte} (h : p y = true)
    (xs : List Byte) :
    (xs ++ [y]).takeWhile p = xs.takeWhile p ∧ (xs.takeWhile p).length < xs.length ∨
      xs.takeWhile p = xs ∧ (xs ++ [y]).takeWhile p = xs ++ [y] := by
  rw [List.takeWhile_append]
  by_cases hall : (xs.takeWhile p).length = xs.length
  · rw [if_pos hall, List.takeWhile_cons_of_pos h, List.takeWhile_nil]
    exact Or.inr ⟨(List.takeWhile_sublist p).eq_of_length hall, rfl⟩
  · rw [if_neg hall]
    exact Or.inl ⟨rfl, Nat.lt_of_le_of_ne (List.takeWhile_sublist p).length_le hall⟩

/-! ## Quoted constants -/

namespace Quoted

/-- The constant is the same, or open to the end of its line of `n` bytes and one byte longer. -/
def SameOrOpen (n : Nat) (q r : Quoted) : Prop :=
  r = q ∨ q.ending ≠ .closed ∧ r.ending = q.ending ∧ q.width = n ∧ r.width = n + 1

theorem SameOrOpen.ending {n : Nat} {q r : Quoted} (h : SameOrOpen n q r) :
    r.ending = q.ending := by
  rcases h with rfl | ⟨_, hending, _⟩
  · rfl
  · exact hending

theorem SameOrOpen.cons {n : Nat} {q r : Quoted} (h : SameOrOpen n q r) (b : Byte) (width : Nat) :
    SameOrOpen (n + width) (q.cons b width) (r.cons b width) := by
  rcases h with rfl | ⟨hopen, hending, hq, hr⟩
  · exact Or.inl rfl
  · refine Or.inr ⟨hopen, hending, ?_, ?_⟩
    · rw [Quoted.cons, hq, Nat.add_comm]
    · rw [Quoted.cons, hr, Nat.add_comm, Nat.add_right_comm]

/-- What is skipped behind a faulty escape goes to the end of the line or stops before it. -/
theorem sameOrOpen_badEscape (rest : List Byte) :
    SameOrOpen (2 + rest.length) ⟨[], 2 + (rest.takeWhile (!·.endsLine)).length, .badEscape⟩
      ⟨[], 2 + ((rest ++ [Byte.carriageReturn]).takeWhile (!·.endsLine)).length, .badEscape⟩ := by
  have hreturn : (!Byte.carriageReturn.endsLine) = true := by decide
  rcases takeWhile_append_singleton (p := (!·.endsLine)) hreturn rest with ⟨h, _⟩ | ⟨h, h'⟩
  · exact Or.inl (by rw [h])
  · refine Or.inr ⟨by simp, rfl, by rw [h], ?_⟩
    rw [h', List.length_append]
    rfl

theorem read_append_return (quote : Byte) (hq : Byte.carriageReturn ≠ quote) (line : List Byte) :
    SameOrOpen line.length (read quote line) (read quote (line ++ [.carriageReturn])) := by
  have hend : Byte.carriageReturn.endsLine = false := by decide
  have hslash : Byte.carriageReturn ≠ .ofChar '\\' := by decide
  have hx : Byte.carriageReturn ≠ .ofChar 'x' := by decide
  have hhex : Byte.carriageReturn.isHexDigit = false := by decide
  fun_induction read quote line with
  | case1 =>
    rw [List.nil_append, read.eq_def]
    simp only [hend, hq, hslash, Bool.false_eq_true, if_false]
    rw [read.eq_def]
    exact Or.inr ⟨by simp, rfl, rfl, rfl⟩
  | case2 b bs hb =>
    rw [List.cons_append, read.eq_def]
    simp only [hb, if_true]
    exact Or.inl rfl
  | case3 bs hb =>
    rw [List.cons_append, read.eq_def]
    simp only [hb, Bool.false_eq_true, if_true, if_false]
    exact Or.inl rfl
  | case4 hb hne =>
    -- the backslash takes the carriage return
    rw [List.cons_append, List.nil_append, read.eq_def]
    simp only [hb, hne, hend, hx, Bool.false_eq_true, if_true, if_false]
    rw [read.eq_def]
    exact Or.inr ⟨by simp, rfl, rfl, rfl⟩
  | case5 e more he hb hne =>
    rw [List.cons_append, List.cons_append, read.eq_def]
    simp only [hb, hne, he, Bool.false_eq_true, if_true, if_false]
    exact Or.inl rfl
  | case6 high low more hx hb hne he ih =>
    simp only [List.cons_append]
    rw [read.eq_def quote (_ :: _)]
    simp only [hb, hne, he, hx, Bool.false_eq_true, if_true, if_false]
    exact ih.cons _ 4
  | case7 high low more hx hb hne he =>
    simp only [List.cons_append]
    rw [read.eq_def quote (_ :: _)]
    simp only [hb, hne, he, hx, Bool.false_eq_true, if_true, if_false]
    have := sameOrOpen_badEscape (high :: low :: more)
    rwa [Nat.add_comm] at this
  | case8 more hm hb hne he =>
    have hbad := sameOrOpen_badEscape more
    rw [Nat.add_comm] at hbad
    -- the escape is cut short by the end of the line
    rcases more with _ | ⟨h, _ | ⟨l, more⟩⟩
    · simp only [List.cons_append, List.nil_append]
      rw [read.eq_def quote (_ :: _)]
      simp only [hb, hne, he, Bool.false_eq_true, if_true, if_false]
      exact hbad
    · simp only [List.cons_append, List.nil_append]
      rw [read.eq_def quote (_ :: _)]
      simp only [hb, hne, he, hhex, Bool.and_false, Bool.false_eq_true, if_true, if_false]
      exact hbad
    · exact (hm h l more rfl).elim
  | case9 e more he hx hb hne ih =>
    rw [List.cons_append, List.cons_append, read.eq_def quote (_ :: _)]
    simp only [hb, hne, he, hx, Bool.false_eq_true, if_true, if_false]
    exact ih.cons _ 2
  | case10 b bs hb hne hbs ih =>
    rw [List.cons_append, read.eq_def quote (_ :: _)]
    simp only [hb, hne, hbs, Bool.false_eq_true, if_false]
    exact ih.cons _ 1

end Quoted

/-! ## Lexemes -/

namespace Lexeme

/-- The lexeme is the same, or the same fault on both sides that runs to the end of its line,
`n` bytes behind the first, and is one byte longer. -/
def SameOrOpen (n : Nat) (x y : Lexeme) : Prop :=
  y = x ∨ x.extra = n ∧ y.extra = n + 1 ∧
    ∃ f g : ScanFault, x.reading = .error f ∧ y.reading = .error g ∧ f.Alike g

/-- The fault of an open constant takes the carriage return with it. -/
theorem unclosed_append_return (quote : Byte) {line : List Byte} {q r : Quoted}
    (h : Quoted.SameOrOpen line.length q r) (hw : q.width ≤ line.length) :
    SameOrOpen line.length (unclosed quote line q)
      (unclosed quote (line ++ [Byte.carriageReturn]) r) := by
  rcases h with rfl | ⟨_, hending, hq, hr⟩
  · left
    unfold unclosed
    rw [List.take_append_of_le_length hw]
  · refine Or.inr ⟨by rw [extra_unclosed, hq], by rw [extra_unclosed, hr], ?_⟩
    unfold unclosed
    rw [hending]
    split
    · exact ⟨_, _, rfl, rfl, Or.inl rfl⟩
    · exact ⟨_, _, rfl, rfl, Or.inr ⟨_, _, rfl, rfl⟩⟩

theorem string_of_open {line : List Byte}
    (h : (Quoted.read (.ofChar '"') line).ending ≠ .closed) :
    string line = unclosed (.ofChar '"') line (Quoted.read (.ofChar '"') line) := by
  unfold string
  dsimp only
  split
  · rename_i hclosed
    exact absurd hclosed h
  · rfl

theorem character_of_open {line : List Byte}
    (h : (Quoted.read (.ofChar '\'') line).ending ≠ .closed) :
    character line = unclosed (.ofChar '\'') line (Quoted.read (.ofChar '\'') line) := by
  unfold character
  dsimp only
  split
  · rename_i hclosed _
    exact absurd hclosed h
  · rename_i hclosed _
    exact absurd hclosed h
  · rfl

theorem string_append_return (line : List Byte) :
    SameOrOpen line.length (string line) (string (line ++ [Byte.carriageReturn])) := by
  have hquoted := Quoted.read_append_return (.ofChar '"') (by decide) line
  have hunclosed := unclosed_append_return (.ofChar '"') hquoted (Quoted.width_read_le _ line)
  by_cases hopen : (Quoted.read (.ofChar '"') line).ending = .closed
  · have h := hquoted.resolve_right fun h => h.1 hopen
    left
    unfold string
    rw [h]
    dsimp only
    rw [hopen]
  · have hopen' : (Quoted.read (.ofChar '"') (line ++ [Byte.carriageReturn])).ending ≠ .closed := by
      rwa [hquoted.ending]
    rw [string_of_open hopen, string_of_open hopen']
    exact hunclosed

theorem character_append_return (line : List Byte) :
    SameOrOpen line.length (character line) (character (line ++ [Byte.carriageReturn])) := by
  have hquoted := Quoted.read_append_return (.ofChar '\'') (by decide) line
  have hunclosed := unclosed_append_return (.ofChar '\'') hquoted (Quoted.width_read_le _ line)
  by_cases hopen : (Quoted.read (.ofChar '\'') line).ending = .closed
  · have h := hquoted.resolve_right fun h => h.1 hopen
    left
    unfold character
    rw [h]
    dsimp only
    rw [hopen]
    cases (Quoted.read (.ofChar '\'') line).value with
    | nil => rfl
    | cons b more =>
      cases more with
      | nil => rfl
      | cons b' more => rfl
  · have hopen' :
        (Quoted.read (.ofChar '\'') (line ++ [Byte.carriageReturn])).ending ≠ .closed := by
      rwa [hquoted.ending]
    rw [character_of_open hopen, character_of_open hopen']
    exact hunclosed

/-- **A lexeme does not notice a carriage return at the end of its line**, unless it is a fault
that runs to the end. -/
theorem read_append_return (left : Left) (b : Byte) (line : List Byte) :
    SameOrOpen line.length (read left b line) (read left b (line ++ [Byte.carriageReturn])) := by
  by_cases hb : b.toChar ∈ ['"', '\'']
  · simp only [List.mem_cons, List.not_mem_nil, or_false] at hb
    unfold read
    rw [name_append_stop Byte.carriageReturn_stops, number_append_stop Byte.carriageReturn_stops]
    split
    · exact Or.inl rfl
    split
    · exact Or.inl rfl
    rcases hb with hb | hb
    · simp only [hb]
      exact string_append_return line
    · simp only [hb]
      exact character_append_return line
  · exact Or.inl (read_append_stop Byte.carriageReturn_stops left hb line [])

end Lexeme

/-! ## The end of a line -/

/-- Two items of the same text, the one without carriage returns and the other with them: a
token as it is, a separator one column further right, or the same fault on the same line. -/
inductive Item.Returned : Item → Item → Prop where
  | token {t : Token} : t.kind.isSeparator = false → Item.Returned (.ok t) (.ok t)
  | separator (place : Span) :
      Item.Returned (.ok (Cursor.separator place))
        (.ok (Cursor.separator { place with colStart := place.colStart + 1 }))
  | fault {e e' : ScanError} : e'.span.line = e.span.line →
      Cause.Alike (.malformed e.message) (.malformed e'.message) →
      Item.Returned (.error e) (.error e')

namespace Cursor

/-- A cursor with a carriage return behind its bytes. -/
def returned (c : Cursor) : Cursor := { c with rest := c.rest ++ [Byte.carriageReturn] }

/-- A gap that goes to the end of the line takes the carriage return in. -/
theorem gap_append_return (line : List Byte) :
    gap (line ++ [Byte.carriageReturn]) = gap line ∧ gap line < line.length ∨
      gap line = line.length ∧ gap (line ++ [Byte.carriageReturn]) = line.length + 1 := by
  have hblank : Byte.carriageReturn.isBlank = true := by decide
  have hsplit :=
    congrArg List.length (List.takeWhile_append_dropWhile (p := (·.isBlank)) (l := line))
  rw [List.length_append] at hsplit
  unfold gap
  cases h : line.dropWhile (·.isBlank) with
  | nil =>
    -- all of the line is blank
    rw [h, List.length_nil, Nat.add_zero] at hsplit
    rw [List.takeWhile_append, if_pos hsplit, List.dropWhile_append, h, List.isEmpty_nil,
      if_pos rfl, List.takeWhile_cons_of_pos hblank, List.dropWhile_cons_of_pos hblank,
      List.takeWhile_nil, List.dropWhile_nil]
    exact Or.inr ⟨hsplit, List.length_append⟩
  | cons b more =>
    rw [h, List.length_cons] at hsplit
    have hne : ¬(line.takeWhile (·.isBlank)).length = line.length := by omega
    rw [List.takeWhile_append, if_neg hne, List.dropWhile_append, h, List.isEmpty_cons,
      if_neg Bool.false_ne_true, List.cons_append]
    dsimp only
    split
    · have hcomment := takeWhile_append_singleton (p := (!·.endsLine))
        (y := Byte.carriageReturn) (by decide) more
      rcases hcomment with ⟨hm, hlt⟩ | ⟨hm, hm'⟩
      · rw [hm]
        exact Or.inl ⟨rfl, by omega⟩
      · rw [hm, hm', List.length_append, List.length_singleton]
        exact Or.inr ⟨by omega, by omega⟩
    · exact Or.inl ⟨rfl, by omega⟩

/-- Whatever is not a newline is read the same, or is a fault that uses up the line. -/
theorem item_returned {c : Cursor} {b : Byte} {line : List Byte} (h : c.rest = b :: line)
    (hb : b.isNewline = false) :
    Item.Returned (c.item b line).1 (c.returned.item b (line ++ [Byte.carriageReturn])).1 ∧
      ((c.returned.item b (line ++ [Byte.carriageReturn])).2 = (c.item b line).2.returned ∨
        (c.item b line).2 = c.skip (line.length + 1) ∧
          (c.returned.item b (line ++ [Byte.carriageReturn])).2
            = c.returned.skip (line.length + 2)) := by
  rcases Lexeme.read_append_return c.left b line with heq | ⟨hx, hy, f, g, hf, hg, halike⟩
  · have hitem : c.returned.item b (line ++ [Byte.carriageReturn])
        = ((c.item b line).1, (c.item b line).2.returned) := item_append h heq
    rw [hitem]
    refine ⟨?_, Or.inl rfl⟩
    rcases item_cases c b line with ⟨hb', _⟩ | ⟨_, ⟨k, l, hk, hi⟩ | ⟨f, hi⟩⟩
    · rw [hb] at hb'
      cases hb'
    · rw [hi]
      exact .token hk
    · rw [hi]
      exact .fault rfl (Or.inl rfl)
  · have hitem : c.item b line = (.error ⟨f.message, c.span (line.length + 1)⟩,
        c.skip (line.length + 1)) := by
      unfold item
      rw [hb, if_neg Bool.false_ne_true]
      simp only [hf, Lexeme.width, hx]
    have hitem' : c.returned.item b (line ++ [Byte.carriageReturn])
        = (.error ⟨g.message, c.returned.span (line.length + 2)⟩,
          c.returned.skip (line.length + 2)) := by
      unfold item
      rw [hb, if_neg Bool.false_ne_true, show c.returned.left = c.left from rfl]
      simp only [hg, Lexeme.width, hy]
    rw [hitem, hitem']
    exact ⟨.fault rfl halike.cause, Or.inr ⟨rfl, rfl⟩⟩

/-- Nothing is left of a line that is used up. -/
theorem scan_of_rest_eq_nil {c : Cursor} (h : c.rest = []) :
    c.items = [] ∧ c.endSpan = c.span 0 := by
  have hskip : c.skipGap = c := skipGap_of_gap (by rw [h]; rfl)
  have hnil : c.skipGap.rest = [] := by rw [hskip, h]
  rw [items_of_nil hnil, endSpan_of_nil hnil, hskip]
  exact ⟨rfl, rfl⟩

/-- **The scan of a line does not notice a carriage return behind it**, but for faults that run
to the end of the line; that end is one column further right. -/
theorem scan_returned (c : Cursor) (hn : Byte.newline ∉ c.rest) :
    List.Forall₂ Item.Returned c.items c.returned.items ∧
      c.returned.endSpan.line = c.endSpan.line ∧
      c.returned.endSpan.colStart = c.endSpan.colStart + 1 := by
  rcases gap_append_return c.rest with ⟨hgap, hlt⟩ | ⟨hgap, hgap'⟩
  · have hskip : c.returned.skipGap = c.skipGap.returned := skipGap_append hgap
    cases h : c.skipGap.rest with
    | nil =>
      rw [skipGap, skip_rest, List.drop_eq_nil_iff] at h
      omega
    | cons b line =>
      have := length_item_skipGap_lt h
      have hb := not_isNewline_of_mem hn (List.mem_of_mem_drop (h ▸ List.mem_cons_self))
      have h' : c.returned.skipGap.rest = b :: (line ++ [Byte.carriageReturn]) := by
        rw [hskip, returned, h]
        rfl
      obtain ⟨hitem, hnext⟩ := item_returned h hb
      rw [← hskip] at hitem hnext
      rw [items_of_cons h, items_of_cons h', endSpan_of_cons h, endSpan_of_cons h']
      rcases hnext with hnext | ⟨hused, hused'⟩
      · have hrest : Byte.newline ∉ (c.skipGap.item b line).2.rest :=
          fun hx => hn (List.mem_of_mem_drop (mem_rest_of_mem_item hx))
        obtain ⟨hitems, hend⟩ := scan_returned (c.skipGap.item b line).2 hrest
        rw [hnext]
        exact ⟨.cons hitem hitems, hend⟩
      · have hnil := scan_of_rest_eq_nil (c := c.skipGap.skip (line.length + 1)) (by
          rw [skip_rest, h, List.drop_eq_nil_iff, List.length_cons])
        have hnil' := scan_of_rest_eq_nil (c := c.returned.skipGap.skip (line.length + 2)) (by
          rw [skip_rest, h', List.drop_eq_nil_iff, List.length_cons, List.length_append]
          exact Nat.le_refl _)
        rw [hused, hused', hnil.1, hnil.2, hnil'.1, hnil'.2, hskip]
        exact ⟨.cons (hskip ▸ hitem) .nil, rfl, rfl⟩
  · have hnil : c.skipGap.rest = [] := by
      rw [skipGap, skip_rest, hgap, List.drop_length]
    have hnil' : c.returned.skipGap.rest = [] := by
      rw [skipGap, skip_rest, returned, hgap', List.drop_eq_nil_iff, List.length_append]
      rfl
    rw [items_of_nil hnil, items_of_nil hnil', endSpan_of_nil hnil, endSpan_of_nil hnil']
    refine ⟨.nil, rfl, ?_⟩
    simp only [span, skipGap, skip, returned, hgap, hgap', Nat.add_assoc]
termination_by c.rest.length

/-! ## Sources -/

/-- Bytes with a carriage return before each newline. -/
def addReturns (bs : List Byte) : List Byte :=
  bs.flatMap fun b => if b = .newline then [.carriageReturn, .newline] else [b]

theorem addReturns_of_notMem {bs : List Byte} (h : Byte.newline ∉ bs) : addReturns bs = bs := by
  induction bs with
  | nil => rfl
  | cons b bs ih =>
    rw [List.mem_cons, not_or] at h
    rw [addReturns, List.flatMap_cons, if_neg (Ne.symm h.1)]
    exact congrArg (b :: ·) (ih h.2)

theorem addReturns_line {line : List Byte} (h : Byte.newline ∉ line) (rest : List Byte) :
    addReturns (line ++ .newline :: rest)
      = line ++ [Byte.carriageReturn] ++ .newline :: addReturns rest := by
  rw [addReturns, List.flatMap_append, List.flatMap_cons, if_pos rfl, List.append_assoc]
  exact congrArg (· ++ _) (addReturns_of_notMem h)

/-- **A text with carriage returns is scanned as without**, separators one column further right
and faults that run to the end of a line apart. -/
theorem scan_addReturns (c : Cursor) :
    List.Forall₂ Item.Returned c.items (items { c with rest := addReturns c.rest }) ∧
      endSpan { c with rest := addReturns c.rest } = c.endSpan := by
  by_cases hn : Byte.newline ∈ c.rest
  · obtain ⟨line, rest, hr, hline⟩ := List.eq_append_cons_of_mem hn
    have hlen : rest.length < c.rest.length := by
      rw [hr, List.length_append, List.length_cons]
      omega
    let first : Cursor := { c with rest := line }
    have hc : c = first.followed rest := by
      rw [followed, ← hr]
    have hc' : ({ c with rest := addReturns c.rest } : Cursor)
        = first.returned.followed (addReturns rest) := by
      rw [hr, addReturns_line hline]
      rfl
    obtain ⟨hitems, hendLine, hendColumn⟩ := scan_returned first hline
    have hsep : separator first.returned.endSpan
        = separator { first.endSpan with colStart := first.endSpan.colStart + 1 } := by
      rw [separator, separator, hendLine, hendColumn]
    have hbelow : below first.returned.endSpan (addReturns rest)
        = { below first.endSpan rest with rest := addReturns (below first.endSpan rest).rest } := by
      rw [below, below, hendLine]
    obtain ⟨hrest, hend⟩ := scan_addReturns (below first.endSpan rest)
    rw [hc', (scan_followed _ _).1, (scan_followed _ _).2, hsep, hbelow, hend]
    conv in c.items => rw [hc]
    conv in c.endSpan => rw [hc]
    rw [(scan_followed _ _).1, (scan_followed _ _).2]
    exact ⟨List.rel_append hitems (.cons (.separator _) hrest), rfl⟩
  · rw [addReturns_of_notMem hn]
    refine ⟨List.forall₂_same.mpr fun i hi => ?_, rfl⟩
    cases i with
    | ok t => exact .token (not_isSeparator_of_mem_items hn hi)
    | error e => exact .fault rfl (Or.inl rfl)
termination_by c.rest.length

end Cursor

/-- The bytes of a text with carriage returns. -/
theorem Utf8.bytes_withReturns (source : String) :
    bytes (withReturns source) = Cursor.addReturns (bytes source) := by
  rw [bytes, withReturns, String.toList_ofList, bytes, Cursor.addReturns, List.flatMap_assoc,
    List.flatMap_assoc]
  refine List.flatMap_congr fun c _ => ?_
  by_cases hc : c = '\n'
  · rw [hc]
    decide
  · have hnone : Byte.newline ∉ String.utf8EncodeChar c := by
      rw [← List.count_eq_zero, count_newline_encode, if_neg hc]
    rw [if_neg hc, List.flatMap_singleton]
    exact (Cursor.addReturns_of_notMem hnone).symm

/-- **The scans of a source with and without carriage returns before its newlines.** -/
theorem Scan.ofSource_withReturns (source : String) :
    List.Forall₂ Item.Returned (ofSource source).items (ofSource (withReturns source)).items ∧
      (ofSource (withReturns source)).endSpan = (ofSource source).endSpan := by
  have h := Cursor.scan_addReturns (Cursor.ofSource source)
  rw [ofSource_eq, ofSource_eq]
  have hsource : Cursor.ofSource (withReturns source) =
      { Cursor.ofSource source with
        rest := Cursor.addReturns (Cursor.ofSource source).rest } := by
    rw [Cursor.ofSource, Utf8.bytes_withReturns]
    rfl
  rw [hsource]
  exact h

end AsmExpand
