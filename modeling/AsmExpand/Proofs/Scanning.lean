import AsmExpand.Proofs.Lexing

/-!
# Scanning line by line

A lexeme does not depend on what stands behind its line, and behind a newline the
cursor looks the same whatever stood before it, its line number apart. So the scan
of a text, a newline and another text is the scan of the first, a separator, and
the scan of the second from the next line on (`Cursor.scan_followed`). Where that
line is matters to the line numbers only (`Cursor.scan_lower`).

For sources that is `Scan.ofSource_append`: complete lines with another source
behind them are scanned as if each stood alone.
-/

namespace AsmExpand

/-- The same place some lines further down. -/
def Span.down (n : Nat) (p : Span) : Span := { p with line := p.line + n }

/-- An item with its place mapped. -/
def Item.mapSpan (f : Span → Span) : Item → Item
  | .ok t => .ok (t.mapSpan f)
  | .error e => .error { e with span := f e.span }

namespace Cursor

/-! ## Items of a cursor -/

/-- The items from a cursor on. -/
def items (c : Cursor) : List Item := (c.scanFrom #[]).items

/-- The place of the end, from a cursor on. -/
def endSpan (c : Cursor) : Span := (c.scanFrom #[]).endSpan

theorem scanFrom_of_nil {c : Cursor} (h : c.skipGap.rest = []) (read : Array Item) :
    c.scanFrom read = ⟨read.toList, c.skipGap.span 0⟩ := by
  rw [scanFrom]
  split
  · rfl
  · rename_i h'
    rw [h] at h'
    cases h'

theorem scanFrom_of_cons {c : Cursor} {b : Byte} {rest : List Byte} (h : c.skipGap.rest = b :: rest)
    (read : Array Item) :
    c.scanFrom read = (c.skipGap.item b rest).2.scanFrom (read.push (c.skipGap.item b rest).1) := by
  rw [scanFrom]
  split
  · rename_i h'
    rw [h] at h'
    cases h'
  · rename_i h'
    rw [h] at h'
    obtain ⟨rfl, rfl⟩ := List.cons.inj h'
    rfl

/-- An item takes bytes, so the rest behind it is shorter. -/
theorem length_item_skipGap_lt {c : Cursor} {b : Byte} {rest : List Byte}
    (h : c.skipGap.rest = b :: rest) : (c.skipGap.item b rest).2.rest.length < c.rest.length :=
  Nat.lt_of_lt_of_le (length_item_lt h) c.length_skipGap_le

/-- Items read before stay in front. -/
theorem scanFrom_eq (read : Array Item) (c : Cursor) :
    c.scanFrom read = ⟨read.toList ++ c.items, c.endSpan⟩ := by
  cases h : c.skipGap.rest with
  | nil =>
    rw [items, endSpan, scanFrom_of_nil h, scanFrom_of_nil h]
    simp
  | cons b rest =>
    have := length_item_skipGap_lt h
    rw [items, endSpan, scanFrom_of_cons h, scanFrom_of_cons h,
      scanFrom_eq _ (c.skipGap.item b rest).2, scanFrom_eq _ (c.skipGap.item b rest).2]
    simp
termination_by c.rest.length

theorem items_of_nil {c : Cursor} (h : c.skipGap.rest = []) : c.items = [] := by
  rw [items, scanFrom_of_nil h]

theorem endSpan_of_nil {c : Cursor} (h : c.skipGap.rest = []) : c.endSpan = c.skipGap.span 0 := by
  rw [endSpan, scanFrom_of_nil h]

theorem items_of_cons {c : Cursor} {b : Byte} {rest : List Byte} (h : c.skipGap.rest = b :: rest) :
    c.items = (c.skipGap.item b rest).1 :: (c.skipGap.item b rest).2.items := by
  rw [items, scanFrom_of_cons h, scanFrom_eq]
  simp

theorem endSpan_of_cons {c : Cursor} {b : Byte} {rest : List Byte}
    (h : c.skipGap.rest = b :: rest) : c.endSpan = (c.skipGap.item b rest).2.endSpan := by
  rw [endSpan, scanFrom_of_cons h, scanFrom_eq]

/-- Where no gap is next, nothing is skipped. -/
theorem skipGap_of_gap {c : Cursor} (h : gap c.rest = 0) : c.skipGap = c := by
  rw [skipGap, h]
  simp [skip]

/-- What an item can be: the end of the line, a token with its place, or a fault. -/
theorem item_cases (c : Cursor) (b : Byte) (rest : List Byte) :
    (b.isNewline = true ∧ c.item b rest = (.ok { kind := .sep, span := c.span 1 }, c.newline)) ∨
    b.isNewline = false ∧
      ((∃ k l, k.isSeparator = false ∧
        c.item b rest = (.ok ⟨k, l, c.span (Lexeme.read c.left b rest).width⟩,
          c.skip (Lexeme.read c.left b rest).width)) ∨
      ∃ f : ScanFault,
        c.item b rest = (.error ⟨f.message, c.span (Lexeme.read c.left b rest).width⟩,
          c.skip (Lexeme.read c.left b rest).width)) := by
  unfold item
  cases hb : b.isNewline with
  | true => exact Or.inl ⟨rfl, rfl⟩
  | false =>
    refine Or.inr ⟨rfl, ?_⟩
    cases hr : (Lexeme.read c.left b rest).reading with
    | ok r =>
      obtain ⟨k, l⟩ := r
      exact Or.inl ⟨k, l, Lexeme.not_isSeparator_of_read hr, by simp [hr]⟩
    | error f => exact Or.inr ⟨f, by simp [hr]⟩

/-- Behind an item stands what stood before it already. -/
theorem mem_rest_of_mem_item {c : Cursor} {b x : Byte} {rest : List Byte}
    (h : x ∈ (c.item b rest).2.rest) : x ∈ c.rest := by
  rcases item_cases c b rest with ⟨_, hi⟩ | ⟨_, ⟨k, l, _, hi⟩ | ⟨f, hi⟩⟩
  · rw [hi] at h
    exact List.mem_of_mem_tail h
  · rw [hi] at h
    exact List.mem_of_mem_drop h
  · rw [hi] at h
    exact List.mem_of_mem_drop h

/-- A byte of a line without newlines is none. -/
theorem not_isNewline_of_mem {line : List Byte} (hn : Byte.newline ∉ line) {b : Byte}
    (hb : b ∈ line) : b.isNewline = false := by
  have hne : b ≠ .newline := fun e => hn (e ▸ hb)
  simpa [Byte.isNewline, Byte.newline] using hne

/-- What each item has that is read, while the cursor keeps an invariant, all items have. -/
theorem forall_mem_items {I : Cursor → Prop} {P : Item → Prop}
    (step : ∀ {c : Cursor} {b : Byte} {rest : List Byte}, I c → c.skipGap.rest = b :: rest →
      P (c.skipGap.item b rest).1 ∧ I (c.skipGap.item b rest).2) {c : Cursor} (hc : I c) :
    ∀ i ∈ c.items, P i := by
  intro i hi
  cases h : c.skipGap.rest with
  | nil =>
    rw [items_of_nil h] at hi
    cases hi
  | cons b rest =>
    have := length_item_skipGap_lt h
    obtain ⟨hitem, hnext⟩ := step hc h
    rw [items_of_cons h] at hi
    rcases List.mem_cons.mp hi with rfl | hi
    · exact hitem
    · exact forall_mem_items step hnext i hi
termination_by c.rest.length

/-- No scanned token is the end of the input. -/
theorem kind_ne_eof_of_mem_items (c : Cursor) {t : Token} (ht : .ok t ∈ c.items) :
    t.kind ≠ .eof := by
  refine forall_mem_items (I := fun _ => True) (P := fun i => ∀ t, i = .ok t → t.kind ≠ .eof)
    (fun {c b rest} _ _ => ⟨fun t ht => ?_, trivial⟩) trivial _ ht t rfl
  rcases item_cases c.skipGap b rest with ⟨_, hi⟩ | ⟨_, ⟨k, l, hk, hi⟩ | ⟨f, hi⟩⟩
  · rw [hi] at ht
    cases ht
    simp
  · rw [hi] at ht
    cases ht
    exact Kind.ne_of_isSeparator hk rfl
  · rw [hi] at ht
    cases ht

/-! ## Texts behind a newline -/

/-- The start of the line after a place. -/
def below (place : Span) (rest : List Byte) : Cursor := { rest := rest, line := place.line + 1 }

/-- The separator at a place. -/
def separator (place : Span) : Token :=
  { kind := .sep, span := ⟨place.line, place.colStart, place.colStart + 1⟩ }

theorem gap_append_newline (line rest : List Byte) :
    gap (line ++ .newline :: rest) = gap line := by
  have hblank : Byte.newline.isBlank = false := by decide
  unfold gap
  rw [takeWhile_append_of_stop hblank, List.dropWhile_append]
  cases h : line.dropWhile (·.isBlank) with
  | nil =>
    rw [List.isEmpty_nil, if_pos rfl, List.dropWhile_cons_of_neg (by simp [hblank])]
    rfl
  | cons b more =>
    rw [List.isEmpty_cons, if_neg (by simp), List.cons_append]
    dsimp only
    rw [takeWhile_append_of_stop (by decide)]

theorem gap_le (line : List Byte) : gap line ≤ line.length := by
  have hsplit :=
    congrArg List.length (List.takeWhile_append_dropWhile (p := (·.isBlank)) (l := line))
  rw [List.length_append] at hsplit
  unfold gap
  cases h : line.dropWhile (·.isBlank) with
  | nil => exact Nat.le_of_eq (by simpa [h] using hsplit)
  | cons b more =>
    have hmore := (List.takeWhile_sublist (l := more) (!·.endsLine)).length_le
    rw [h, List.length_cons] at hsplit
    dsimp only
    split
    · omega
    · omega

/-- A cursor with more bytes behind its own. -/
def append (c : Cursor) (more : List Byte) : Cursor := { c with rest := c.rest ++ more }

theorem skip_append (c : Cursor) (more : List Byte) {n : Nat} (h : n ≤ c.rest.length) :
    (c.append more).skip n = (c.skip n).append more := by
  simp only [skip, append, List.drop_append_of_le_length h, List.take_append_of_le_length h]

/-- A gap that bytes behind it do not change. -/
theorem skipGap_append {c : Cursor} {more : List Byte} (h : gap (c.rest ++ more) = gap c.rest) :
    (c.append more).skipGap = c.skipGap.append more := by
  rw [skipGap, skipGap, ← skip_append c more (gap_le c.rest), append, h]

/-- An item whose lexeme the bytes behind do not change. -/
theorem item_append {c : Cursor} {b : Byte} {line more : List Byte} (h : c.rest = b :: line)
    (hread : Lexeme.read c.left b (line ++ more) = Lexeme.read c.left b line) :
    (c.append more).item b (line ++ more) = ((c.item b line).1, (c.item b line).2.append more) := by
  have hw : (Lexeme.read c.left b line).width ≤ c.rest.length := by
    have := Lexeme.extra_read_le c.left b line
    rw [h, List.length_cons]
    exact Nat.succ_le_succ this
  unfold item
  split
  · refine Prod.ext rfl ?_
    simp [newline, append, h]
  · rw [show (c.append more).left = c.left from rfl, hread]
    dsimp only
    rw [skip_append c more hw]
    split
    · rfl
    · rfl

/-- A cursor with more bytes behind a newline. -/
def followed (c : Cursor) (rest : List Byte) : Cursor :=
  { c with rest := c.rest ++ .newline :: rest }

theorem skipGap_followed (c : Cursor) (rest : List Byte) :
    (c.followed rest).skipGap = c.skipGap.followed rest :=
  skipGap_append (gap_append_newline c.rest rest)

theorem item_followed {c : Cursor} {b : Byte} {line : List Byte} (h : c.rest = b :: line)
    (rest : List Byte) :
    (c.followed rest).item b (line ++ .newline :: rest)
      = ((c.item b line).1, (c.item b line).2.followed rest) :=
  item_append h (Lexeme.read_append_newline c.left b line rest)

/-- **The scan of a text, a newline and another text** is the scan of the first, a
separator, and the scan of the second from the next line on. -/
theorem scan_followed (c : Cursor) (rest : List Byte) :
    (c.followed rest).items
        = c.items ++ .ok (separator c.endSpan) :: (below c.endSpan rest).items ∧
      (c.followed rest).endSpan = (below c.endSpan rest).endSpan := by
  cases h : c.skipGap.rest with
  | nil =>
    have hf : (c.followed rest).skipGap.rest = .newline :: rest := by
      rw [skipGap_followed, followed, h]
      rfl
    have hi : (c.followed rest).skipGap.item .newline rest
        = (.ok (separator c.endSpan), below c.endSpan rest) := by
      rw [endSpan_of_nil h, skipGap_followed, item, if_pos (by decide)]
      refine Prod.ext rfl ?_
      simp [newline, followed, below, span, h]
    rw [items_of_cons hf, endSpan_of_cons hf, items_of_nil h, hi]
    exact ⟨rfl, rfl⟩
  | cons b line =>
    have := length_item_skipGap_lt h
    have ih := scan_followed (c.skipGap.item b line).2 rest
    have hf : (c.followed rest).skipGap.rest = b :: (line ++ .newline :: rest) := by
      rw [skipGap_followed, followed, h]
      rfl
    rw [items_of_cons hf, endSpan_of_cons hf, items_of_cons h, endSpan_of_cons h, skipGap_followed,
      item_followed h]
    exact ⟨by rw [ih.1]; rfl, ih.2⟩
termination_by c.rest.length

/-! ## Line numbers -/

/-- A cursor some lines further down. -/
def lower (n : Nat) (c : Cursor) : Cursor := { c with line := c.line + n }

theorem skipGap_lower (n : Nat) (c : Cursor) : (c.lower n).skipGap = c.skipGap.lower n := rfl

theorem item_lower (n : Nat) (c : Cursor) (b : Byte) (rest : List Byte) :
    (c.lower n).item b rest
      = (Item.mapSpan (Span.down n) (c.item b rest).1, (c.item b rest).2.lower n) := by
  unfold item
  split
  · refine Prod.ext rfl ?_
    simp only [newline, lower, Nat.add_right_comm]
  · rw [show (c.lower n).left = c.left from rfl]
    dsimp only
    split
    · rfl
    · rfl

/-- The scan does not depend on the line it starts on, line numbers apart. -/
theorem scan_lower (n : Nat) (c : Cursor) :
    (c.lower n).items = c.items.map (Item.mapSpan (Span.down n)) ∧
      (c.lower n).endSpan = c.endSpan.down n := by
  cases h : c.skipGap.rest with
  | nil =>
    have hl : (c.lower n).skipGap.rest = [] := h
    rw [items_of_nil hl, endSpan_of_nil hl, items_of_nil h, endSpan_of_nil h]
    exact ⟨rfl, rfl⟩
  | cons b rest =>
    have := length_item_skipGap_lt h
    have ih := scan_lower n (c.skipGap.item b rest).2
    have hl : (c.lower n).skipGap.rest = b :: rest := h
    rw [items_of_cons hl, endSpan_of_cons hl, items_of_cons h, endSpan_of_cons h, skipGap_lower,
      item_lower]
    exact ⟨by rw [ih.1]; rfl, ih.2⟩
termination_by c.rest.length

theorem line_endSpan_of_notMem (c : Cursor) (hn : Byte.newline ∉ c.rest) :
    c.endSpan.line = c.line := by
  cases h : c.skipGap.rest with
  | nil =>
    rw [endSpan_of_nil h]
    rfl
  | cons b rest =>
    have := length_item_skipGap_lt h
    have hb := not_isNewline_of_mem hn (List.mem_of_mem_drop (h ▸ List.mem_cons_self))
    have hnext : (c.skipGap.item b rest).2
        = c.skipGap.skip (Lexeme.read c.skipGap.left b rest).width := by
      rcases item_cases c.skipGap b rest with ⟨hb', _⟩ | ⟨_, ⟨k, l, _, hi⟩ | ⟨f, hi⟩⟩
      · rw [hb] at hb'
        cases hb'
      · rw [hi]
      · rw [hi]
    have ih := line_endSpan_of_notMem (c.skipGap.item b rest).2
      fun hx => hn (List.mem_of_mem_drop (mem_rest_of_mem_item hx))
    rw [endSpan_of_cons h, ih, hnext]
    rfl
termination_by c.rest.length

/-- Every newline begins a line. -/
theorem line_endSpan (c : Cursor) : c.endSpan.line = c.line + c.rest.count .newline := by
  by_cases hn : Byte.newline ∈ c.rest
  · obtain ⟨line, rest, hr, hline⟩ := List.eq_append_cons_of_mem hn
    have hc : c = Cursor.followed { c with rest := line } rest := by
      rw [followed, ← hr]
    have hlen : rest.length < c.rest.length := by
      rw [hr, List.length_append, List.length_cons]
      omega
    have ih := line_endSpan (below (Cursor.endSpan { c with rest := line }) rest)
    have h0 : (Cursor.endSpan { c with rest := line }).line = c.line :=
      line_endSpan_of_notMem _ hline
    have hs := congrArg Span.line (scan_followed { c with rest := line } rest).2
    rw [← hc, ih] at hs
    rw [hs, hr, List.count_append, List.count_eq_zero.mpr hline, List.count_cons_self]
    change Span.line _ + 1 + rest.count .newline = _
    rw [h0]
    omega
  · rw [line_endSpan_of_notMem c hn, List.count_eq_zero.mpr hn, Nat.add_zero]
termination_by c.rest.length

end Cursor

/-! ## Source texts -/

namespace Utf8

theorem bytes_append (a b : String) : bytes (a ++ b) = bytes a ++ bytes b := by
  simp [bytes]

/-- Among the bytes of characters, a newline stands for itself alone. -/
theorem count_newline_encode (c : Char) :
    (String.utf8EncodeChar c).count Byte.newline = if c = '\n' then 1 else 0 := by
  by_cases hc : c = '\n'
  · rw [hc]
    decide
  rw [if_neg hc, List.count_eq_zero]
  have hv : c.val.toNat ≠ 10 := fun h => hc (Char.ext (UInt32.toNat_inj.mp h))
  have byte : ∀ n, n < 256 → n ≠ 10 → UInt8.ofNat n ≠ Byte.newline := by
    intro n hlt hne e
    have := congrArg UInt8.toNat e
    rw [UInt8.toNat_ofNat', show Byte.newline.toNat = 10 from rfl] at this
    omega
  intro hmem
  unfold String.utf8EncodeChar at hmem
  dsimp only at hmem
  split at hmem
  · simp only [List.mem_singleton] at hmem
    exact byte _ (by omega) hv hmem.symm
  -- the bytes of longer sequences lie above the ASCII range
  split at hmem
  · simp only [List.mem_cons, List.not_mem_nil, or_false] at hmem
    rcases hmem with h | h <;> exact byte _ (by omega) (by omega) h.symm
  split at hmem
  · simp only [List.mem_cons, List.not_mem_nil, or_false] at hmem
    rcases hmem with h | h | h <;> exact byte _ (by omega) (by omega) h.symm
  · simp only [List.mem_cons, List.not_mem_nil, or_false] at hmem
    rcases hmem with h | h | h | h <;> exact byte _ (by omega) (by omega) h.symm

theorem count_newline_bytes (s : String) :
    (bytes s).count .newline = s.toList.count '\n' := by
  unfold bytes
  induction s.toList with
  | nil => rfl
  | cons c cs ih =>
    rw [List.flatMap_cons, List.count_append, ih, count_newline_encode, List.count_cons]
    by_cases h : c = '\n'
    · simp [h, Nat.add_comm]
    · simp [h]

end Utf8

namespace Scan

theorem ofSource_eq (source : String) :
    ofSource source = ⟨(Cursor.ofSource source).items, (Cursor.ofSource source).endSpan⟩ := by
  rw [ofSource, Cursor.scanFrom_eq]
  rfl

@[simp] theorem items_ofSource_empty : (ofSource "").items = [] := by
  rw [ofSource_eq]
  exact Cursor.items_of_nil rfl

theorem ofSource_newline_append (lines rest : String) :
    Cursor.ofSource (lines ++ "\n" ++ rest)
      = (Cursor.ofSource lines).followed (Utf8.bytes rest) := by
  rw [Cursor.ofSource, Utf8.bytes_append, Utf8.bytes_append, List.append_assoc]
  rfl

/-- The last item of complete lines is a separator. -/
theorem items_ofSource_newline (lines : String) :
    (ofSource (lines ++ "\n")).items
      = (Cursor.ofSource lines).items
        ++ [.ok (Cursor.separator (Cursor.ofSource lines).endSpan)] := by
  have hscan := (Cursor.scan_followed (Cursor.ofSource lines) (Utf8.bytes "")).1
  have hnone : (Cursor.below (Cursor.ofSource lines).endSpan (Utf8.bytes "")).items = [] :=
    Cursor.items_of_nil rfl
  rw [← ofSource_newline_append, String.append_empty, hnone] at hscan
  rw [ofSource_eq, hscan]

/-- **A source behind complete lines is scanned as if it stood alone**, line numbers
apart. -/
theorem ofSource_append {a : String} (h : a = "" ∨ ∃ lines, a = lines ++ "\n") (b : String) :
    ofSource (a ++ b) =
      ⟨(ofSource a).items
          ++ (ofSource b).items.map (Item.mapSpan (Span.down (a.toList.count '\n'))),
        (ofSource b).endSpan.down (a.toList.count '\n')⟩ := by
  rcases h with rfl | ⟨lines, rfl⟩
  · have hid : Item.mapSpan (Span.down 0) = id := by
      funext i
      cases i with
      | ok t => rfl
      | error e => rfl
    rw [String.empty_append, show "".toList.count '\n' = 0 from rfl, hid, List.map_id,
      items_ofSource_empty]
    rfl
  · have hcount : (lines ++ "\n").toList.count '\n' = (Cursor.ofSource lines).endSpan.line := by
      rw [Cursor.line_endSpan, Cursor.ofSource, Utf8.count_newline_bytes, String.toList_append,
        List.count_append, Nat.add_comm]
      rfl
    have hbelow : Cursor.below (Cursor.ofSource lines).endSpan (Utf8.bytes b)
        = (Cursor.ofSource b).lower (Cursor.ofSource lines).endSpan.line := by
      rw [Cursor.below, Cursor.lower, Nat.add_comm]
      rfl
    have hscan := Cursor.scan_followed (Cursor.ofSource lines) (Utf8.bytes b)
    have hdown := Cursor.scan_lower (Cursor.ofSource lines).endSpan.line (Cursor.ofSource b)
    rw [ofSource_eq, ofSource_newline_append, hscan.1, hscan.2, items_ofSource_newline, hcount,
      hbelow, hdown.1, hdown.2, ofSource_eq b]
    simp

end Scan

end AsmExpand
