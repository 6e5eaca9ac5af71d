import AsmExpand.Lexer.Cursor

/-!
# Lexemes are local to a line

Most lexemes end where a byte stands that goes on with no name and makes no operator of two
characters (`Byte.Stops`): whatever follows it, they are the same
(`Lexeme.read_append_stop`). Only a quoted constant runs over such bytes.

A newline is one, and a quoted constant stops before it as well. So the scanner never reads
past a newline: a lexeme is the same whatever stands behind it
(`Lexeme.read_append_newline`), and it stays inside the line (`Lexeme.extra_read_le`). None is
a separator.
-/

namespace AsmExpand

namespace Byte

/-- The byte between two lines. -/
def newline : Byte := .ofChar '\n'

/-- Nothing but a quoted constant runs over the byte: it is not part of a word, and not the
second character of an operator. -/
structure Stops (b : Byte) : Prop where
  word : b.continuesName = false
  sign : b.toChar ∉ ['*', '=', '&', '|', '^', '<', '>']

theorem newline_stops : newline.Stops := ⟨by decide, by decide⟩

/-- What numbers are made of may be part of a name. -/
theorem Stops.number {b : Byte} (h : b.Stops) : b.continuesNumber = false := by
  have hword := h.word
  simp only [continuesName, startsName, continuesNumber, Bool.or_eq_false_iff] at hword ⊢
  exact ⟨⟨hword.1.1.1, hword.2⟩, hword.1.1.2⟩

/-- Digits, in each base, and what may stand between them go on with a name. -/
theorem Stops.digit {b : Byte} (h : b.Stops) :
    b.isHexDigit = false ∧ b.isBinaryDigit = false ∧ (b == .ofChar '_') = false := by
  have hword : ¬b.continuesName = true := by
    rw [h.word]
    exact Bool.false_ne_true
  rw [continuesName_iff] at hword
  refine ⟨?_, ?_, ?_⟩
  · rw [Bool.eq_false_iff]
    simp only [isHexDigit, isDigit, Ne, Bool.or_eq_true, Bool.and_eq_true, decide_eq_true_iff,
      UInt8.le_iff_toNat_le]
    change ¬((48 ≤ b.toNat ∧ b.toNat ≤ 57 ∨ 65 ≤ b.toNat ∧ b.toNat ≤ 70) ∨
      97 ≤ b.toNat ∧ b.toNat ≤ 102)
    omega
  · rw [Bool.eq_false_iff, isBinaryDigit, Ne, Bool.or_eq_true, beq_iff_eq, beq_iff_eq,
      ← UInt8.toNat_inj, ← UInt8.toNat_inj]
    change ¬(b.toNat = 48 ∨ b.toNat = 49)
    omega
  · rw [Bool.eq_false_iff, Ne, beq_iff_eq, ← UInt8.toNat_inj]
    change ¬b.toNat = 95
    omega

end Byte

theorem takeWhile_append_of_stop {p : Byte → Bool} {y : Byte} (h : p y = false)
    (xs ys : List Byte) : (xs ++ y :: ys).takeWhile p = xs.takeWhile p := by
  induction xs with
  | nil => exact List.takeWhile_cons_of_neg (by simp [h])
  | cons x xs ih => rw [List.cons_append, List.takeWhile_cons, List.takeWhile_cons, ih]

namespace Quoted

theorem read_append_newline (quote : Byte) (line rest : List Byte) :
    read quote (line ++ .newline :: rest) = read quote line := by
  have hend : Byte.newline.endsLine = true := by decide
  have hhex : Byte.newline.isHexDigit = false := by decide
  have hstop := takeWhile_append_of_stop (p := (!·.endsLine)) (y := .newline) (by rw [hend]; rfl)
  fun_induction read quote line with
  | case1 =>
    rw [List.nil_append, read.eq_def]
    simp only [hend, if_true]
  | case2 b bs hb =>
    rw [List.cons_append, read.eq_def]
    simp only [hb, if_true]
  | case3 bs hb =>
    rw [List.cons_append, read.eq_def]
    simp only [hb, Bool.false_eq_true, if_true, if_false]
  | case4 hb hne =>
    rw [List.cons_append, List.nil_append, read.eq_def]
    simp only [hb, hne, hend, Bool.false_eq_true, if_true, if_false]
  | case5 e more he hb hne =>
    rw [List.cons_append, List.cons_append, read.eq_def]
    simp only [hb, hne, he, Bool.false_eq_true, if_true, if_false]
  | case6 high low more hx hb hne he ih =>
    simp only [List.cons_append]
    rw [read.eq_def]
    simp only [hb, hne, he, hx, ih, Bool.false_eq_true, if_true, if_false]
  | case7 high low more hx hb hne he =>
    simp only [List.cons_append]
    rw [read.eq_def]
    simp only [hb, hne, he, hx, Bool.false_eq_true, if_true, if_false]
    rw [← List.cons_append, ← List.cons_append, hstop]
  | case8 more hm hb hne he =>
    -- the escape is cut short by the newline
    match more, hm with
    | [], _ =>
      simp only [List.cons_append, List.nil_append]
      rw [read.eq_def]
      cases rest with
      | nil =>
        simp only [hb, hne, he, Bool.false_eq_true, if_true, if_false]
        rfl
      | cons y ys =>
        simp only [hb, hne, he, hhex, Bool.false_and, Bool.false_eq_true, if_true, if_false]
        rfl
    | [h], _ =>
      simp only [List.cons_append, List.nil_append]
      rw [read.eq_def]
      simp only [hb, hne, he, hhex, Bool.and_false, Bool.false_eq_true, if_true, if_false]
      rw [← List.singleton_append, hstop]
    | h :: l :: more, hm => exact (hm h l more rfl).elim
  | case9 e more he hx hb hne ih =>
    rw [List.cons_append, List.cons_append, read.eq_def]
    simp only [hb, hne, he, hx, ih, Bool.false_eq_true, if_true, if_false]
  | case10 b bs hb hne hbs ih =>
    rw [List.cons_append, read.eq_def]
    simp only [hb, hne, hbs, ih, Bool.false_eq_true, if_false]

theorem width_read_le (quote : Byte) (line : List Byte) :
    (read quote line).width ≤ line.length := by
  have hlen : ∀ bs : List Byte, (bs.takeWhile (!·.endsLine)).length ≤ bs.length :=
    fun bs => (List.takeWhile_sublist _).length_le
  fun_induction read quote line with
  | case1 => exact Nat.le_refl _
  | case2 => exact Nat.zero_le _
  | case3 => simp
  | case4 => simp
  | case5 => simp
  | case6 high low more hx hb hne he ih =>
    simp only [cons, List.length_cons]
    omega
  | case7 high low more hx hb hne he =>
    have := hlen (high :: low :: more)
    simp only [List.length_cons] at *
    omega
  | case8 more hm hb hne he =>
    have := hlen more
    simp only [List.length_cons]
    omega
  | case9 e more he hx hb hne ih =>
    simp only [cons, List.length_cons]
    omega
  | case10 b bs hb hne hbs ih =>
    simp only [cons, List.length_cons]
    omega

end Quoted

namespace Lexeme

/-- The second sign of an operator is needed. -/
theorem punctuation_of_ends {c n : Char} (h : n ∉ ['*', '=', '&', '|', '^', '<', '>']) :
    punctuation c n = punctuation c '\x00' := by
  simp only [List.mem_cons, List.not_mem_nil, or_false, not_or] at h
  unfold punctuation
  split <;> simp_all

section Stops

variable {y : Byte} (h : y.Stops)

include h

theorem name_append_stop (b : Byte) (line rest : List Byte) :
    name b (line ++ y :: rest) = name b line := by
  unfold name
  rw [takeWhile_append_of_stop h.word]

theorem number_append_stop (b : Byte) (line rest : List Byte) :
    number b (line ++ y :: rest) = number b line := by
  unfold number
  rw [takeWhile_append_of_stop h.number]

theorem prefixedNumber_append_stop (base : Nat) {isDigit : Byte → Bool}
    (hy : isDigit y = false) (line rest : List Byte) :
    prefixedNumber base isDigit (line ++ y :: rest) = prefixedNumber base isDigit line := by
  unfold prefixedNumber
  rw [takeWhile_append_of_stop (by rw [hy, h.digit.2.2]; rfl)]

theorem keyword_append_stop (line rest : List Byte) :
    keyword (line ++ y :: rest) = keyword line := by
  cases line with
  | nil =>
    have hy : y.startsKeyword = false := by
      have hword := h.word
      simp only [Byte.continuesName, Byte.startsName, Bool.or_eq_false_iff] at hword
      exact hword.1.1.1
    simp [keyword, hy]
  | cons b line =>
    unfold keyword
    rw [takeWhile_append_of_stop h.word]
    rfl

theorem punctuation_append_stop (c : Char) (line rest : List Byte) :
    punctuation c ((line ++ y :: rest).head?.elim '\x00' Byte.toChar)
      = punctuation c (line.head?.elim '\x00' Byte.toChar) := by
  cases line with
  | nil => exact punctuation_of_ends h.sign
  | cons b line => rfl

omit h in
theorem startsWith_append_stop {isDigit : Byte → Bool} (hy : isDigit y = false)
    (line rest : List Byte) :
    startsWith isDigit (line ++ y :: rest) = startsWith isDigit line := by
  cases line with
  | nil => exact hy
  | cons b line => rfl

/-- **A lexeme that opens no quote is the same whatever stands behind the byte.** -/
theorem read_append_stop (left : Left) {b : Byte} (hb : b.toChar ∉ ['"', '\''])
    (line rest : List Byte) :
    read left b (line ++ y :: rest) = read left b line := by
  simp only [List.mem_cons, List.not_mem_nil, or_false, not_or] at hb
  unfold read
  simp only [name_append_stop h, number_append_stop h, keyword_append_stop h,
    punctuation_append_stop h, startsWith_append_stop h.digit.1, startsWith_append_stop h.digit.2.1,
    prefixedNumber_append_stop h 16 h.digit.1, prefixedNumber_append_stop h 2 h.digit.2.1]
  split
  · rfl
  split
  · rfl
  split
  · exact absurd ‹_› hb.1
  · exact absurd ‹_› hb.2
  · rfl
  · rfl
  · rfl
  · rfl

end Stops

theorem unclosed_append_newline (quote : Byte) (line rest : List Byte) :
    unclosed quote (line ++ .newline :: rest) (Quoted.read quote line)
      = unclosed quote line (Quoted.read quote line) := by
  unfold unclosed
  rw [List.take_append_of_le_length (Quoted.width_read_le quote line)]

theorem string_append_newline (line rest : List Byte) :
    string (line ++ .newline :: rest) = string line := by
  unfold string
  simp only [Quoted.read_append_newline, unclosed_append_newline]

theorem character_append_newline (line rest : List Byte) :
    character (line ++ .newline :: rest) = character line := by
  unfold character
  simp only [Quoted.read_append_newline, unclosed_append_newline]

/-- **A lexeme is the same whatever stands behind the newline.** -/
theorem read_append_newline (left : Left) (b : Byte) (line rest : List Byte) :
    read left b (line ++ .newline :: rest) = read left b line := by
  by_cases hb : b.toChar ∈ ['"', '\'']
  · -- a quoted constant stops before the newline
    simp only [List.mem_cons, List.not_mem_nil, or_false] at hb
    unfold read
    rw [name_append_stop Byte.newline_stops, number_append_stop Byte.newline_stops]
    rcases hb with hb | hb
    · simp only [hb, string_append_newline]
    · simp only [hb, character_append_newline]
  · exact read_append_stop Byte.newline_stops left hb line rest

theorem extra_ofInt? (v : Option Int64) (extra : Nat) : (ofInt? v extra).extra = extra := by
  cases v with
  | none => rfl
  | some v => rfl

theorem extra_keyword_le (line : List Byte) : (keyword line).extra ≤ line.length := by
  have hlen := (List.takeWhile_sublist (l := line) (·.continuesName)).length_le
  unfold keyword
  split
  · exact Nat.zero_le _
  · split
    · dsimp only
      split
      · exact hlen
      · exact hlen
    · exact Nat.zero_le _

theorem extra_unclosed (quote : Byte) (line : List Byte) (q : Quoted) :
    (unclosed quote line q).extra = q.width := by
  unfold unclosed
  split
  · rfl
  · rfl

theorem extra_string_le (line : List Byte) : (string line).extra ≤ line.length := by
  have hw := Quoted.width_read_le (.ofChar '"') line
  unfold string
  dsimp only
  split
  · exact hw
  · rw [extra_unclosed]
    exact hw

theorem extra_character_le (line : List Byte) : (character line).extra ≤ line.length := by
  have hw := Quoted.width_read_le (.ofChar '\'') line
  unfold character
  dsimp only
  split
  · exact hw
  · exact hw
  · rw [extra_unclosed]
    exact hw

/-- An operator takes its second character from the line. -/
theorem extra_punctuation_le (c : Char) (line : List Byte) :
    (punctuation c (line.head?.elim '\x00' Byte.toChar)).extra ≤ line.length := by
  cases line with
  | nil =>
    have h0 : (punctuation c '\x00').extra = 0 := by
      unfold punctuation
      split <;> simp_all [plain, fault]
    exact Nat.le_of_eq h0
  | cons b line =>
    have h1 : ∀ n, (punctuation c n).extra ≤ 1 := by
      intro n
      unfold punctuation
      split <;> simp [plain, fault]
    exact Nat.le_trans (h1 _) (by simp)

/-- **A lexeme stays inside its line.** -/
theorem extra_read_le (left : Left) (b : Byte) (line : List Byte) :
    (read left b line).extra ≤ line.length := by
  have hlen : ∀ p : Byte → Bool, (line.takeWhile p).length ≤ line.length :=
    fun p => (List.takeWhile_sublist p).length_le
  have hprefixed : ∀ base isDigit, (prefixedNumber base isDigit line).extra ≤ line.length := by
    intro base isDigit
    unfold prefixedNumber
    rw [extra_ofInt?]
    exact hlen _
  unfold read
  split
  · exact hlen _
  split
  · unfold number
    rw [extra_ofInt?]
    exact hlen _
  split
  · exact extra_string_le line
  · exact extra_character_le line
  · exact extra_keyword_le line
  · split
    · exact hprefixed _ _
    · exact Nat.zero_le _
  · split
    · exact hprefixed _ _
    · exact Nat.zero_le _
  · exact extra_punctuation_le _ line

theorem not_isSeparator_keywordKind (word : String) : (keywordKind word).isSeparator = false := by
  unfold keywordKind
  split <;> rfl

theorem not_isSeparator_of_keyword {rest : List Byte} {k : Kind} {l : Option Literal}
    (h : (keyword rest).reading = .ok (k, l)) : k.isSeparator = false := by
  unfold keyword at h
  split at h
  · cases h
  · split at h
    · dsimp only at h
      split at h
      · cases h
        rfl
      · cases h
        exact not_isSeparator_keywordKind _
    · cases h

/-- No lexeme is a separator: only a newline and the end of the bytes are. -/
theorem not_isSeparator_of_read {left : Left} {b : Byte} {rest : List Byte} {k : Kind}
    {l : Option Literal} (h : (read left b rest).reading = .ok (k, l)) : k.isSeparator = false := by
  have ofInt : ∀ {v : Option Int64} {extra}, (ofInt? v extra).reading = .ok (k, l) →
      k.isSeparator = false := by
    intro v extra hv
    cases v with
    | none => cases hv
    | some v =>
      cases hv
      rfl
  have unclosed : ∀ {quote line q}, (unclosed quote line q).reading ≠ .ok (k, l) := by
    intro quote line q hu
    unfold Lexeme.unclosed at hu
    split at hu
    · cases hu
    · cases hu
  unfold read at h
  split at h
  · cases h
    rfl
  split at h
  · exact ofInt h
  split at h
  · unfold string at h
    dsimp only at h
    split at h
    · cases h
      rfl
    · exact absurd h unclosed
  · unfold character at h
    dsimp only at h
    split at h
    · cases h
      rfl
    · cases h
    · exact absurd h unclosed
  · exact not_isSeparator_of_keyword h
  · split at h
    · exact ofInt h
    · cases h
  · split at h
    · exact ofInt h
    · cases h
      rfl
  · unfold punctuation at h
    split at h <;> cases h <;> rfl

end Lexeme

end AsmExpand
