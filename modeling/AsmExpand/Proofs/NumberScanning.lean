import AsmExpand.Proofs.Comments
import AsmExpand.Proofs.Numerals

/-!
# Numbers in a source

A line that spells a number is scanned as one item, wherever the line stands: the constant, if
the number fits into a word, and otherwise one fault over the whole line (`scan_of_spells`).
Nothing else is scanned as a constant, characters in quotes apart (`spells_of_scan`).

For either it is enough to see that the lexeme takes the line in: the line has no blanks, so
the scan of it is its first item.
-/

namespace AsmExpand

/-! ## Lines of one item -/

/-- The item that a lexeme is read as, at a place. -/
def Item.ofReading : Except ScanFault (Kind × Option Literal) → Span → Item
  | .ok (kind, literal), place => .ok ⟨kind, literal, place⟩
  | .error f, place => .error ⟨f.message, place⟩

/-- A line is scanned as the one item, which covers it, wherever it stands: behind complete
lines, and before the end of the source or more lines. -/
def ScansAs (line : String) (reading : Except ScanFault (Kind × Option Literal)) : Prop :=
  ∀ lines : String, (lines = "" ∨ ∃ most, lines = most ++ "\n") →
    let above := lines.toList.count '\n'
    let place : Span := ⟨above + 1, 1, 1 + (Utf8.bytes line).length⟩
    (Scan.ofSource (lines ++ line)).items
        = (Scan.ofSource lines).items ++ [Item.ofReading reading place] ∧
      ∀ rest : String, (Scan.ofSource (lines ++ (line ++ "\n" ++ rest))).items
        = (Scan.ofSource lines).items ++ Item.ofReading reading place
          :: .ok (Cursor.separator ⟨above + 1, place.colEnd, place.colEnd⟩)
          :: (Scan.ofSource rest).items.map (Item.mapSpan (Span.down (above + 1)))

theorem Cursor.item_of_not_isNewline {c : Cursor} {b : Byte} (hb : b.isNewline = false)
    (rest : List Byte) :
    c.item b rest = (Item.ofReading (Lexeme.read c.left b rest).reading
        (c.span (Lexeme.read c.left b rest).width), c.skip (Lexeme.read c.left b rest).width) := by
  rw [item, hb, if_neg Bool.false_ne_true]
  dsimp only
  cases (Lexeme.read c.left b rest).reading with
  | ok r => rfl
  | error f => rfl

theorem Item.mapSpan_ofReading (f : Span → Span)
    (reading : Except ScanFault (Kind × Option Literal)) (place : Span) :
    Item.mapSpan f (Item.ofReading reading place) = Item.ofReading reading (f place) := by
  cases reading with
  | ok r => rfl
  | error e => rfl

/-- A line by itself, scanned as one item over all of it. -/
def Scan.ofLine (line : String) (reading : Except ScanFault (Kind × Option Literal)) : Scan :=
  let length := (Utf8.bytes line).length
  ⟨[Item.ofReading reading ⟨1, 1, 1 + length⟩], ⟨1, 1 + length, 1 + length⟩⟩

/-- A lexeme over a whole line without blanks is all that is scanned of it. -/
theorem Scan.ofSource_of_read {line : String} {b : Byte} {rest : List Byte}
    {reading : Except ScanFault (Kind × Option Literal)} (hbytes : Utf8.bytes line = b :: rest)
    (hb : b.isBlank = false ∧ b.isNewline = false ∧ b ≠ .ofChar ';')
    (hread : Lexeme.read {} b rest = ⟨reading, rest.length⟩) :
    Scan.ofSource line = Scan.ofLine line reading := by
  obtain ⟨hblank, hnewline, hcomment⟩ := hb
  have hgap : (Cursor.ofSource line).skipGap = Cursor.ofSource line := by
    refine Cursor.skipGap_of_gap ?_
    rw [Cursor.ofSource, hbytes]
    simp [Cursor.gap, hblank, hcomment]
  have hcons : (Cursor.ofSource line).skipGap.rest = b :: rest := by
    rw [hgap, Cursor.ofSource, hbytes]
  have hitem : (Cursor.ofSource line).skipGap.item b rest
      = (Item.ofReading reading ⟨1, 1, 1 + (Utf8.bytes line).length⟩,
        (Cursor.ofSource line).skip (Utf8.bytes line).length) := by
    rw [hgap, Cursor.item_of_not_isNewline hnewline, show (Cursor.ofSource line).left = {} from rfl,
      hread, hbytes]
    rfl
  -- behind the lexeme the line is over
  have hnil : ((Cursor.ofSource line).skip (Utf8.bytes line).length).rest = [] := by
    rw [Cursor.skip_rest, Cursor.ofSource, List.drop_length]
  have hend : ((Cursor.ofSource line).skip (Utf8.bytes line).length).skipGap
      = (Cursor.ofSource line).skip (Utf8.bytes line).length :=
    Cursor.skipGap_of_gap (by rw [hnil]; rfl)
  have hnil' := (congrArg Cursor.rest hend).trans hnil
  rw [Scan.ofSource_eq, Cursor.items_of_cons hcons, Cursor.endSpan_of_cons hcons, hitem,
    Cursor.items_of_nil hnil', Cursor.endSpan_of_nil hnil', hend]
  rfl

/-- What a line by itself is scanned as, it is scanned as wherever it stands. -/
theorem ScansAs.of_scan {line : String} {reading : Except ScanFault (Kind × Option Literal)}
    (hn : '\n' ∉ line.toList) (h : Scan.ofSource line = Scan.ofLine line reading) :
    ScansAs line reading := by
  intro lines hlines above place
  have hdown : Item.mapSpan (Span.down above)
      (Item.ofReading reading ⟨1, 1, 1 + (Utf8.bytes line).length⟩)
        = Item.ofReading reading place := by
    rw [Item.mapSpan_ofReading, Span.down, Nat.add_comm 1 above]
  constructor
  · rw [Scan.ofSource_append hlines, h]
    exact congrArg _ (congrArg (fun i => [i]) hdown)
  · intro rest
    have hcount : (line ++ "\n").toList.count '\n' = 1 := by
      rw [String.toList_append, List.count_append, List.count_eq_zero.mpr hn]
      rfl
    rw [Scan.ofSource_eq] at h
    have hitems : (Cursor.ofSource line).items = (Scan.ofLine line reading).items :=
      congrArg Scan.items h
    have hend : (Cursor.ofSource line).endSpan = (Scan.ofLine line reading).endSpan :=
      congrArg Scan.endSpan h
    -- the lines of the rest go down twice: below this one, and below the lines above
    have hdowns : ∀ items : List Item,
        (items.map (Item.mapSpan (Span.down 1))).map (Item.mapSpan (Span.down above))
          = items.map (Item.mapSpan (Span.down (above + 1))) := by
      intro items
      rw [List.map_map]
      refine List.map_congr_left fun i _ => ?_
      cases i <;> simp [Item.mapSpan, Span.down, Token.mapSpan, Nat.add_comm above, Nat.add_assoc]
    have hsep : Item.mapSpan (Span.down above)
        (.ok (Cursor.separator (Scan.ofLine line reading).endSpan))
          = .ok (Cursor.separator ⟨above + 1, place.colEnd, place.colEnd⟩) := by
      simp [Item.mapSpan, Token.mapSpan, Cursor.separator, Span.down, Scan.ofLine, place,
        Nat.add_comm 1 above]
    rw [Scan.ofSource_append hlines, Scan.ofSource_append (Or.inr ⟨line, rfl⟩),
      Scan.items_ofSource_newline, hitems, hend, hcount, List.map_append, hdowns, List.map_append,
      List.map_singleton, hsep, Scan.ofLine, List.map_singleton, hdown, List.append_assoc]
    rfl

/-! ## Spellings as bytes -/

namespace Byte

theorem continuesName_of_continuesNumber {b : Byte} (h : b.continuesNumber = true) :
    b.continuesName = true := by
  by_contra hname
  rw [Bool.not_eq_true, continuesName, startsName] at hname
  simp only [Bool.or_eq_false_iff] at hname
  rw [continuesNumber, hname.1.1.1, hname.1.1.2, hname.2] at h
  cases h

theorem continuesName_of_isHexDigit : ∀ b : Byte, b.isHexDigit = true → b.continuesName = true :=
  forall_of_fin (by decide +kernel)

theorem continuesName_of_isBinaryDigit :
    ∀ b : Byte, b.isBinaryDigit = true → b.continuesName = true :=
  forall_of_fin (by decide +kernel)

end Byte

namespace Number

/-- Characters that are all bytes of a class. -/
theorem exists_chars {p : Byte → Prop} {cs : List Char}
    (h : ∀ c ∈ cs, ∃ b : Byte, b.toChar = c ∧ p b) :
    ∃ bs, Lexeme.chars bs = cs ∧ ∀ b ∈ bs, p b := by
  induction cs with
  | nil => exact ⟨[], rfl, nofun⟩
  | cons c cs ih =>
    obtain ⟨b, rfl, hb⟩ := h c List.mem_cons_self
    obtain ⟨bs, rfl, hbs⟩ := ih fun x hx => h x (List.mem_cons_of_mem _ hx)
    exact ⟨b :: bs, rfl, List.forall_mem_cons.mpr ⟨hb, hbs⟩⟩

/-- With underscores between them, characters are underscores and what they were. -/
theorem exists_chars_spaced {p : Byte → Prop} {tail cs : List Char} (ht : dropUnderscores tail = cs)
    (hp : p (.ofChar '_')) (h : ∀ c ∈ cs, ∃ b : Byte, b.toChar = c ∧ p b) :
    ∃ bs, Lexeme.chars bs = tail ∧ ∀ b ∈ bs, p b := by
  refine exists_chars fun c hc => ?_
  by_cases hu : c = '_'
  · exact ⟨.ofChar '_', by rw [hu]; decide, hp⟩
  · exact h c (ht ▸ mem_dropUnderscores hc hu)

/-- The letters of the forms are letters of numbers. -/
theorem continuesNumber_of_mem_behind {f : Form} (hf : f ∈ sourceForms) {c : Char}
    (hc : c ∈ f.behind) : ∃ b : Byte, b.toChar = c ∧ b.continuesNumber = true := by
  have table : ∀ f ∈ sourceForms, ∀ c ∈ f.behind,
      (Byte.ofChar c).toChar = c ∧ (Byte.ofChar c).continuesNumber = true :=
    forall_chars_of_all (by decide +kernel)
  exact ⟨_, table f hf c hc⟩

theorem mark_of_mem_sourceForms {mark : List Char} {base : Nat}
    (h : .marked mark base ∈ sourceForms) :
    mark = ['$'] ∧ base = 16 ∨ mark = ['%'] ∧ base = 2 := by
  simpa [sourceForms, letteredForms] using h

end Number

namespace Lexeme

/-- A number without a mark is read as far as it goes. -/
theorem read_number {b : Byte} {rest : List Byte} (hb : b.isDigit = true)
    (hrest : ∀ c ∈ rest, c.continuesNumber = true) (left : Left) :
    read left b rest = ofInt? (Number.scanned? (chars (b :: rest))) rest.length := by
  have htake : rest.takeWhile (·.continuesNumber) = rest := List.takeWhile_eq_self_iff.mpr hrest
  rw [read, if_neg (by rw [Byte.startsName_of_isDigit hb]; exact Bool.false_ne_true), if_pos hb,
    number, htake]

/-- A number behind a mark is read as far as its digits go. -/
theorem prefixedNumber_of_digits {isDigit : Byte → Bool} {base : Nat} {rest : List Byte}
    (h : ∀ c ∈ rest, (isDigit c || c == .ofChar '_') = true) :
    prefixedNumber base isDigit rest
      = ofInt? (Number.prefixed? base (chars rest)) rest.length := by
  rw [prefixedNumber, List.takeWhile_eq_self_iff.mpr h]

end Lexeme

namespace Number

/-- A text is one lexeme, from its first byte to its last, where a line begins. -/
def IsLexeme (cs : List Char) (x : Option Int64) : Prop :=
  ∃ b rest, Lexeme.chars (b :: rest) = cs ∧
    (b.toNat < 128 ∧ b.isBlank = false ∧ b.isNewline = false ∧ b ≠ .ofChar ';') ∧
    (∀ c ∈ rest, c.continuesName = true) ∧
    Lexeme.read {} b rest = Lexeme.ofInt? x rest.length

theorem isLexeme_of_unmarked {f : Form} (hf : f ∈ sourceForms) (hb : f.before = [])
    {first : Char} {digits tail : List Char} {n : Nat} (hn : Numeral f.base (first :: digits) n)
    (hfirst : ∃ d, IsDigit 10 first d) (ht : dropUnderscores tail = digits ++ f.behind) :
    IsLexeme (first :: tail) (word? n) := by
  obtain ⟨d, hd⟩ := hfirst
  obtain ⟨b, rfl, -, -, -, hdigit, -⟩ := hd.exists_byte
  have hdigit : b.isDigit = true := hdigit rfl
  have hclass : ∀ c ∈ digits ++ f.behind, ∃ b : Byte, b.toChar = c ∧ b.continuesNumber = true := by
    intro c hc
    rcases List.mem_append.mp hc with hc | hc
    · obtain ⟨e, he⟩ := hn.isDigit_of_mem (List.mem_cons_of_mem _ hc)
      obtain ⟨x, hx, hword, -⟩ := he.exists_byte
      exact ⟨x, hx, hword⟩
    · exact continuesNumber_of_mem_behind hf hc
  obtain ⟨rest, rfl, hrest⟩ := exists_chars_spaced ht (by decide) hclass
  have hname := Byte.continuesName_of_isDigit hdigit
  refine ⟨b, rest, rfl, ⟨Byte.ascii_of_continuesName hname, Byte.visible_of_continuesName hname⟩,
    fun c hc => Byte.continuesName_of_continuesNumber (hrest c hc), ?_⟩
  rw [Lexeme.read_number hdigit hrest, ← scanned?_of_numeral hf hb hn ht]
  rfl

/-- A class of bytes whose characters are digits of a base. -/
theorem exists_isDigit {base : Nat} {isDigit : Byte → Bool}
    (h : ∀ i : Fin 256, isDigit (UInt8.ofNat i) = true →
      (digit? base (Byte.toChar (UInt8.ofNat i))).isSome = true)
    {b : Byte} (hb : isDigit b = true) : ∃ d, IsDigit base b.toChar d := by
  have hall := Byte.forall_of_fin (p := fun b => isDigit b = true →
    (digit? base b.toChar).isSome = true) h
  obtain ⟨d, hd⟩ := Option.isSome_iff_exists.mp (hall b hb)
  exact ⟨d, (digit?_eq_some_iff _ _ _).mp hd⟩

/-- A byte that, where a line begins, is a mark before digits of a base, and the class of these
digits. -/
structure Marks (mark : Byte) (base : Nat) (isDigit : Byte → Bool) : Prop where
  visible : mark.toNat < 128 ∧ mark.isBlank = false ∧ mark.isNewline = false ∧ mark ≠ .ofChar ';'
  reads : ∀ rest, Lexeme.startsWith isDigit rest = true →
    Lexeme.read {} mark rest = Lexeme.prefixedNumber base isDigit rest
  form : .marked [mark.toChar] base ∈ sourceForms
  digit : ∀ {c d}, IsDigit base c d → ∃ b : Byte, b.toChar = c ∧ isDigit b = true
  value : ∀ {b}, isDigit b = true → ∃ d, IsDigit base b.toChar d
  word : ∀ {b}, isDigit b = true → b.continuesName = true

theorem marks_dollar : Marks (.ofChar '$') 16 Byte.isHexDigit where
  visible := by decide
  reads rest h := if_pos h
  form := by decide
  digit h := by
    obtain ⟨b, hb, -, -, hhex, -⟩ := h.exists_byte
    exact ⟨b, hb, hhex rfl⟩
  value := exists_isDigit (by decide +kernel)
  word := Byte.continuesName_of_isHexDigit _

theorem marks_percent : Marks (.ofChar '%') 2 Byte.isBinaryDigit where
  visible := by decide
  reads rest h := by
    change (if Lexeme.startsWith Byte.isBinaryDigit rest && Left.operandMayBegin {} then _ else _)
      = _
    rw [h]
    rfl
  form := by decide
  digit h := by
    obtain ⟨b, hb, -, -, -, -, hbinary⟩ := h.exists_byte
    exact ⟨b, hb, hbinary rfl⟩
  value := exists_isDigit (by decide +kernel)
  word := Byte.continuesName_of_isBinaryDigit _

/-- Digits and the underscores between them may be part of a name. -/
theorem Marks.word_of_spaced {mark : Byte} {base : Nat} {isDigit : Byte → Bool}
    (hm : Marks mark base isDigit) {b : Byte} (h : (isDigit b || b == .ofChar '_') = true) :
    b.continuesName = true := by
  rcases (Bool.or_eq_true _ _).mp h with h | h
  · exact hm.word h
  · rw [eq_of_beq h]
    decide

theorem isLexeme_of_marked {mark : Byte} {base : Nat} {isDigit : Byte → Bool}
    (hm : Marks mark base isDigit) {first : Char} {digits tail : List Char} {n : Nat}
    (hn : Numeral base (first :: digits) n) (ht : dropUnderscores tail = digits) :
    IsLexeme (mark.toChar :: first :: tail) (word? n) := by
  obtain ⟨d, hd⟩ := hn.isDigit_of_mem List.mem_cons_self
  obtain ⟨b, rfl, hb⟩ := hm.digit hd
  have hclass : ∀ c ∈ digits,
      ∃ b : Byte, b.toChar = c ∧ (isDigit b || b == .ofChar '_') = true := by
    intro c hc
    obtain ⟨e, he⟩ := hn.isDigit_of_mem (List.mem_cons_of_mem _ hc)
    obtain ⟨x, hx, hxdigit⟩ := hm.digit he
    exact ⟨x, hx, by rw [hxdigit]; rfl⟩
  obtain ⟨rest, rfl, hrest⟩ := exists_chars_spaced ht (by simp) hclass
  have hdigits : ∀ c ∈ b :: rest, (isDigit c || c == .ofChar '_') = true :=
    List.forall_mem_cons.mpr ⟨by rw [hb]; rfl, hrest⟩
  refine ⟨mark, b :: rest, rfl, hm.visible, fun c hc => ?_, ?_⟩
  · exact hm.word_of_spaced (hdigits c hc)
  · rw [hm.reads (b :: rest) hb, Lexeme.prefixedNumber_of_digits hdigits, prefixed?, Lexeme.chars,
      List.map_cons, dropUnderscores_cons hd, ← hn.unsigned?, ← ht]
    rfl

/-- **A spelling is one lexeme**, with the value that it spells. -/
theorem Spells.isLexeme {cs : List Char} {n : Nat} (h : Spells cs n) :
    IsLexeme cs (word? n) := by
  obtain ⟨f, hf, hn, hbegins, ht⟩ := h
  cases f with
  | plain => exact isLexeme_of_unmarked hf rfl hn (hbegins rfl) ht
  | lettered letter base => exact isLexeme_of_unmarked hf rfl hn (hbegins rfl) ht
  | marked mark base =>
    rw [Form.behind, List.append_nil] at ht
    rcases mark_of_mem_sourceForms hf with ⟨rfl, rfl⟩ | ⟨rfl, rfl⟩
    · exact isLexeme_of_marked marks_dollar hn ht
    · exact isLexeme_of_marked marks_percent hn ht

/-- A text that is one lexeme stays on its line. -/
theorem IsLexeme.newline_notMem {cs : List Char} {x : Option Int64} (h : IsLexeme cs x) :
    '\n' ∉ cs := by
  obtain ⟨b, rest, rfl, ⟨-, -, hnewline, -⟩, hword, -⟩ := h
  intro hmem
  obtain ⟨c, hc, hchar⟩ := List.mem_map.mp hmem
  have hten : c.toNat = 10 := by
    rw [← Byte.toNat_toChar, hchar]
    rfl
  have hline : c.isNewline = true := (Byte.isNewline_iff c).mpr hten
  rcases List.mem_cons.mp hc with rfl | hc
  · exact absurd hline (Bool.eq_false_iff.mp hnewline)
  · exact absurd hline (Bool.eq_false_iff.mp (Byte.visible_of_continuesName (hword c hc)).2.1)

/-- What a lexeme over a whole line is read as, the line is scanned as. -/
theorem IsLexeme.scan_eq {text : String} {x : Option Int64} (h : IsLexeme text.toList x) :
    Scan.ofSource text = Scan.ofLine text (Lexeme.ofInt? x 0).reading := by
  obtain ⟨b, rest, hchars, ⟨hascii, hvisible⟩, hword, hread⟩ := h
  have hbytes : Utf8.bytes text = b :: rest := by
    rw [← String.ofList_toList (s := text), ← hchars]
    refine Utf8.bytes_ofList_toChar (List.forall_mem_cons.mpr ⟨hascii, fun c hc => ?_⟩)
    exact Byte.ascii_of_continuesName (hword c hc)
  refine Scan.ofSource_of_read hbytes hvisible ?_
  rw [hread]
  cases x with
  | some v => rfl
  | none => rfl

end Number

/-- **Every spelling of a number is scanned to the number**, in every line that consists of it:
as the one constant with this value if it is below 2^63, and otherwise as one fault. -/
theorem scan_of_spells {text : String} {n : Nat} (h : Number.Spells text.toList n) :
    (n < 2 ^ 63 → ∃ v : Int64, v.toInt = n ∧ ScansAs text (.ok (.int, some (.int v)))) ∧
      (2 ^ 63 ≤ n → ScansAs text (.error .illegalDigits)) := by
  have hscan := ScansAs.of_scan h.isLexeme.newline_notMem h.isLexeme.scan_eq
  constructor
  · intro hn
    obtain ⟨v, hv⟩ : ∃ v, Number.word? n = some v := by
      refine Option.ne_none_iff_exists'.mp fun hnone => ?_
      exact absurd ((Number.word?_eq_none_iff n).mp hnone) (Nat.not_le.mpr hn)
    rw [hv] at hscan
    exact ⟨v, Number.toInt_of_word? hv, hscan⟩
  · intro hn
    rw [(Number.word?_eq_none_iff n).mpr hn] at hscan
    exact hscan

theorem scan_of_spells_hex :
    Number.Spells "0F_fh".toList 255 ∧ Number.Spells "$8000000000000000".toList (2 ^ 63) ∧
      (∃ v : Int64, v.toInt = (255 : Nat) ∧ ScansAs "0F_fh" (.ok (.int, some (.int v)))) ∧
      ScansAs "$8000000000000000" (.error .illegalDigits) := by
  have hsmall : Number.Spells "0F_fh".toList 255 :=
    ⟨.lettered 'h' 16, by decide,
      @Number.Form.Spells.intro _ '0' ['F', 'f'] ['F', '_', 'f', 'h'] _
        ((Number.natural?_eq_some_iff _ _ _).mp rfl)
        (fun _ => ⟨0, (Number.digit?_eq_some_iff _ _ _).mp rfl⟩) rfl⟩
  have hlarge : Number.Spells "$8000000000000000".toList (2 ^ 63) :=
    ⟨.marked ['$'] 16, by decide,
      @Number.Form.Spells.intro _ '8' (List.replicate 15 '0') (List.replicate 15 '0') _
        ((Number.natural?_eq_some_iff _ _ _).mp rfl) nofun rfl⟩
  exact ⟨hsmall, hlarge, (scan_of_spells hsmall).1 (by decide),
    (scan_of_spells hlarge).2 (Nat.le_refl _)⟩

/-! ## What is scanned as a number -/

/-- A spelling of a word by itself. -/
theorem Number.Spells.items_eq {text : String} {n : Nat} {v : Int64} (h : Spells text.toList n)
    (hv : v.toInt = n) : (Scan.ofSource text).items
      = [.ok ⟨.int, some (.int v), ⟨1, 1, 1 + (Utf8.bytes text).length⟩⟩] := by
  rw [h.isLexeme.scan_eq, (word?_eq_some_iff n v).mpr hv]
  rfl

namespace Lexeme

theorem ne_int_of_keyword {rest : List Byte} {k : Kind} {l : Option Literal}
    (h : (keyword rest).reading = .ok (k, l)) : k ≠ .int := by
  have hkind : ∀ word, keywordKind word ≠ .int := by
    intro word
    unfold keywordKind
    split <;> simp
  unfold keyword at h
  split at h
  · cases h
  · split at h
    · dsimp only at h
      split at h
      · cases h
        simp
      · cases h
        exact hkind _
    · cases h

/-- An integer constant is a number, without a mark or behind one, or a character. -/
theorem number_or_marked_of_read {b : Byte} {rest : List Byte} {l : Option Literal}
    (hquote : b.toChar ≠ '\'') (h : (read {} b rest).reading = .ok (.int, l)) :
    b.isDigit = true ∧ read {} b rest = number b rest ∨
      ∃ base isDigit, Number.Marks b base isDigit ∧ startsWith isDigit rest = true := by
  have of_toChar : ∀ {c : Char}, b.toChar = c → b = .ofChar c := by
    rintro c rfl
    exact Byte.forall_of_fin (p := fun b => b = .ofChar b.toChar) (by decide +kernel) b
  unfold read at h
  split at h
  · cases h
  split at h
  · rename_i hname hdigit
    exact Or.inl ⟨hdigit, by rw [read, if_neg hname, if_pos hdigit]⟩
  refine Or.inr ?_
  split at h
  · unfold string at h
    dsimp only at h
    split at h
    · cases h
    · unfold unclosed at h
      split at h <;> cases h
  · rename_i hb
    exact absurd hb hquote
  · exact absurd rfl (ne_int_of_keyword h)
  · rename_i hb
    split at h
    · rename_i hstarts
      exact ⟨16, _, of_toChar hb ▸ Number.marks_dollar, hstarts⟩
    · cases h
  · rename_i hb
    split at h
    · rename_i hstarts
      exact ⟨2, _, of_toChar hb ▸ Number.marks_percent, (Bool.and_eq_true_iff.mp hstarts).1⟩
    · cases h
  · unfold punctuation at h
    split at h <;> cases h

end Lexeme

/-- A token other than a line end is what its lexeme is read as. -/
theorem Cursor.reading_of_item {c : Cursor} {b : Byte} {rest : List Byte} {t : Token}
    (hk : t.kind ≠ .sep) (h : (c.item b rest).1 = .ok t) :
    (Lexeme.read c.left b rest).reading = .ok (t.kind, t.literal) ∧
      t.span = c.span (Lexeme.read c.left b rest).width := by
  have hnewline : b.isNewline = false := by
    rw [Bool.eq_false_iff]
    intro hb
    rw [item, if_pos hb] at h
    exact hk (congrArg Token.kind (Except.ok.inj h)).symm
  rw [item_of_not_isNewline hnewline] at h
  cases hr : (Lexeme.read c.left b rest).reading with
  | error f =>
    rw [hr] at h
    cases h
  | ok r =>
    rw [hr] at h
    obtain rfl := Except.ok.inj h
    exact ⟨rfl, rfl⟩

/-- A token over all of a text is its one lexeme. -/
theorem Scan.read_of_items {text : String} {k : Kind} {l : Option Literal} (hk : k ≠ .sep)
    (h : (Scan.ofSource text).items = [.ok ⟨k, l, ⟨1, 1, 1 + (Utf8.bytes text).length⟩⟩]) :
    ∃ b rest, Utf8.bytes text = b :: rest ∧ Lexeme.read {} b rest = ⟨.ok (k, l), rest.length⟩ := by
  rw [Scan.ofSource_eq] at h
  cases hc : (Cursor.ofSource text).skipGap.rest with
  | nil =>
    rw [Cursor.items_of_nil hc] at h
    cases h
  | cons b rest =>
    rw [Cursor.items_of_cons hc] at h
    obtain ⟨hreading, hplace⟩ := Cursor.reading_of_item hk (List.cons.inj h).1
    -- the token begins where the text does, so no gap stands before it
    have hcolumn : 1 = 1 + Cursor.gap (Utf8.bytes text) := congrArg Span.colStart hplace
    have hgap : (Cursor.ofSource text).skipGap = Cursor.ofSource text :=
      Cursor.skipGap_of_gap (by change Cursor.gap (Utf8.bytes text) = 0; omega)
    rw [hgap] at hc hreading hplace
    have hbytes : Utf8.bytes text = b :: rest := hc
    have hextra : (Lexeme.read {} b rest).extra = rest.length := by
      have hwidth : 1 + (Utf8.bytes text).length = 1 + (Lexeme.read {} b rest).width :=
        congrArg Span.colEnd hplace
      rw [hbytes, List.length_cons, Lexeme.width] at hwidth
      omega
    have hread : (Lexeme.read {} b rest).reading = .ok (k, l) := hreading
    refine ⟨b, rest, hbytes, ?_⟩
    rw [← hextra, ← hread]

/-- A text whose first byte is below 128 begins with the character of the byte. -/
theorem Utf8.head?_of_bytes {text : String} {b : Byte} {rest : List Byte}
    (h : Utf8.bytes text = b :: rest) (hb : b.toNat < 128) :
    text.toList.head? = some b.toChar := by
  unfold bytes at h
  cases hcs : text.toList with
  | nil =>
    rw [hcs] at h
    cases h
  | cons c cs =>
    rw [hcs, List.flatMap_cons] at h
    have hne : String.utf8EncodeChar c ≠ [] := fun e => by
      have := congrArg List.length e
      rw [String.length_utf8EncodeChar] at this
      exact absurd this (Nat.ne_of_gt c.utf8Size_pos)
    obtain ⟨x, xs, hx⟩ := List.exists_cons_of_ne_nil hne
    rw [hx, List.cons_append, List.cons.injEq] at h
    rw [List.head?_cons, toChar_of_mem_encode (c := c) (hx ▸ h.1 ▸ List.mem_cons_self) hb]

/-- Bytes below 128 are those of their characters only. -/
theorem Utf8.toList_of_bytes {text : String} {bs : List Byte} (h : Utf8.bytes text = bs)
    (hascii : ∀ b ∈ bs, b.toNat < 128) : text.toList = Lexeme.chars bs := by
  have hsame : Utf8.bytes (String.ofList (Lexeme.chars bs)) = Utf8.bytes text :=
    (Utf8.bytes_ofList_toChar hascii).trans h.symm
  have htext := congrArg Utf8.decode hsame
  rw [Utf8.decode_bytes, Utf8.decode_bytes] at htext
  rw [← htext, String.toList_ofList]

namespace Lexeme

/-- A class of bytes that takes all the rest in. -/
theorem forall_of_takeWhile {p : Byte → Bool} {rest : List Byte}
    (h : (rest.takeWhile p).length = rest.length) :
    rest.takeWhile p = rest ∧ ∀ b ∈ rest, p b = true := by
  have heq : rest.takeWhile p = rest := (List.takeWhile_prefix p).eq_of_length h
  exact ⟨heq, List.takeWhile_eq_self_iff.mp heq⟩

theorem eq_of_ofInt? {x : Option Int64} {n m : Nat} {v : Int64}
    (h : ofInt? x n = ⟨.ok (.int, some (.int v)), m⟩) : x = some v ∧ n = m := by
  cases x with
  | none => cases h
  | some w =>
    cases h
    exact ⟨rfl, rfl⟩

end Lexeme

namespace Number

/-- A number without a mark that takes all of a text in spells its value. -/
theorem spells_of_number {text : String} {b : Byte} {rest : List Byte} {v : Int64}
    (hbytes : Utf8.bytes text = b :: rest) (hb : b.isDigit = true)
    (hread : Lexeme.number b rest = ⟨.ok (.int, some (.int v)), rest.length⟩) :
    ∃ n : Nat, v.toInt = n ∧ Spells text.toList n := by
  obtain ⟨hv, hlength⟩ := Lexeme.eq_of_ofInt? hread
  obtain ⟨htake, hall⟩ := Lexeme.forall_of_takeWhile hlength
  rw [htake] at hv
  have hascii : ∀ c ∈ b :: rest, c.toNat < 128 := by
    refine List.forall_mem_cons.mpr ⟨?_, fun c hc => ?_⟩
    · exact Byte.ascii_of_continuesName (Byte.continuesName_of_isDigit hb)
    · exact Byte.ascii_of_continuesName (Byte.continuesName_of_continuesNumber (hall c hc))
  have hfirst : ∃ d, IsDigit 10 b.toChar d := exists_isDigit (by decide +kernel) hb
  rw [Utf8.toList_of_bytes hbytes hascii]
  exact spells_of_scanned? hfirst hv

/-- A number behind a mark that takes all of a text in spells its value. -/
theorem spells_of_prefixedNumber {text : String} {mark : Byte} {base : Nat} {isDigit : Byte → Bool}
    (hm : Marks mark base isDigit) {rest : List Byte} {v : Int64}
    (hbytes : Utf8.bytes text = mark :: rest) (hstarts : Lexeme.startsWith isDigit rest = true)
    (hread : Lexeme.prefixedNumber base isDigit rest
      = ⟨.ok (.int, some (.int v)), rest.length⟩) :
    ∃ n : Nat, v.toInt = n ∧ Spells text.toList n := by
  obtain ⟨hv, hlength⟩ := Lexeme.eq_of_ofInt? hread
  obtain ⟨htake, hall⟩ := Lexeme.forall_of_takeWhile hlength
  rw [htake] at hv
  have hascii : ∀ c ∈ mark :: rest, c.toNat < 128 := by
    refine List.forall_mem_cons.mpr ⟨hm.visible.1, fun c hc => ?_⟩
    exact Byte.ascii_of_continuesName (hm.word_of_spaced (hall c hc))
  rw [Utf8.toList_of_bytes hbytes hascii]
  cases rest with
  | nil => cases hstarts
  | cons x more =>
    obtain ⟨d, hd⟩ := hm.value (b := x) hstarts
    obtain ⟨n, hn, hvalue⟩ := (unsigned?_eq_some_iff _ _ _).mp hv
    rw [Lexeme.chars, List.map_cons, dropUnderscores_cons hd] at hn
    exact ⟨n, hvalue, .marked [mark.toChar] base, hm.form,
      .intro hn (fun h => absurd h (List.cons_ne_nil _ _)) (List.append_nil _).symm⟩

end Number

/-- **What is scanned as a number spells it**: a constant over all of a text, other than a
character in quotes. -/
theorem spells_of_scan {text : String} {v : Int64}
    (h : (Scan.ofSource text).items
      = [.ok ⟨.int, some (.int v), ⟨1, 1, 1 + (Utf8.bytes text).length⟩⟩])
    (hquote : text.toList.head? ≠ some '\'') :
    ∃ n : Nat, v.toInt = n ∧ Number.Spells text.toList n := by
  obtain ⟨b, rest, hbytes, hread⟩ := Scan.read_of_items (by simp) h
  have hb : b.toChar ≠ '\'' := by
    intro hchar
    refine hquote (hchar ▸ Utf8.head?_of_bytes hbytes ?_)
    rw [← Byte.toNat_toChar, hchar]
    decide
  rcases Lexeme.number_or_marked_of_read hb (congrArg Lexeme.reading hread) with
    ⟨hdigit, hnumber⟩ | ⟨base, isDigit, hm, hstarts⟩
  · exact Number.spells_of_number hbytes hdigit (hnumber ▸ hread)
  · exact Number.spells_of_prefixedNumber hm hbytes hstarts (hm.reads rest hstarts ▸ hread)

end AsmExpand
