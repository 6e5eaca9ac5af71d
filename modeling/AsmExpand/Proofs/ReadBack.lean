import AsmExpand.Proofs.Encoding
import AsmExpand.Proofs.Lexing
import AsmExpand.Token.Printer
import Mathlib.Data.List.TakeWhile

/-!
# Tokens read back

A token is written as a source spells it, and read again it is the same token, its place
apart (`Readable.spelled`). That is so for every token that was ever read
(`readable_of_read`), whatever it was spelled like then: a number comes back from
decimal digits, a string constant from its escapes, and a directive in upper case.

What stands behind the token must not go on with it: no letter behind a name, no second
sign behind an operator (`Kind.endsAt`). A blank, a comma, a colon and a closing
parenthesis go on with nothing. What stands to the left matters to `%` only, and there
not if no binary digit follows.
-/

namespace AsmExpand

/-! ## Bytes -/

namespace Byte

/-- There are few bytes, so a property of them can be checked. -/
theorem forall_of_fin {p : Byte → Prop} (h : ∀ i : Fin 256, p (UInt8.ofNat i)) (b : Byte) :
    p b := by
  have := h ⟨b.toNat, b.toNat_lt⟩
  rwa [UInt8.ofNat_toNat] at this

theorem ascii_of_continuesName {b : Byte} (h : b.continuesName = true) : b.toNat < 128 := by
  rw [continuesName_iff] at h
  omega

/-- What names are made of can be seen, and begins no comment. -/
theorem visible_of_continuesName {b : Byte} (h : b.continuesName = true) :
    b.isBlank = false ∧ b.isNewline = false ∧ b ≠ .ofChar ';' := by
  rw [continuesName_iff] at h
  rw [Bool.eq_false_iff, Bool.eq_false_iff, Ne, Ne, isBlank_iff, isNewline_iff]
  refine ⟨by omega, by omega, fun e => ?_⟩
  rw [e, show (ofChar ';').toNat = 59 from rfl] at h
  omega

theorem continuesName_of_startsName {b : Byte} (h : b.startsName = true) :
    b.continuesName = true := by
  simp [continuesName, h]

theorem continuesName_of_startsKeyword {b : Byte} (h : b.startsKeyword = true) :
    b.continuesName = true := by
  have h : b.isLetter = true := h
  simp [continuesName, startsName, h]

theorem continuesName_of_isDigit {b : Byte} (h : b.isDigit = true) : b.continuesName = true := by
  simp [continuesName, h]

theorem continuesNumber_of_isDigit {b : Byte} (h : b.isDigit = true) :
    b.continuesNumber = true := by
  simp [continuesNumber, h]

theorem startsName_of_isDigit {b : Byte} (h : b.isDigit = true) : b.startsName = false := by
  rw [isDigit_iff] at h
  rw [Bool.eq_false_iff, Ne, startsName_iff]
  omega

/-- A letter in upper case, and any other byte as it is. -/
def toUpper (b : Byte) : Byte := if b.isLowerLetter then b - 32 else b

theorem toNat_toUpper (b : Byte) :
    b.toUpper.toNat = if 97 ≤ b.toNat ∧ b.toNat ≤ 122 then b.toNat - 32 else b.toNat := by
  unfold toUpper
  simp only [isLowerLetter_iff]
  split
  · rename_i h
    exact UInt8.toNat_sub_of_le b 32 (UInt8.le_iff_toNat_le.mpr (Nat.le_trans (by decide) h.1))
  · rfl

theorem toUpper_toUpper (b : Byte) : b.toUpper.toUpper = b.toUpper := by
  apply UInt8.toNat_inj.mp
  rw [toNat_toUpper, toNat_toUpper]
  split
  · rw [if_neg (by omega)]
  · rfl

theorem continuesName_toUpper (b : Byte) : b.toUpper.continuesName = b.continuesName := by
  rw [Bool.eq_iff_iff, continuesName_iff, continuesName_iff, toNat_toUpper]
  split
  · omega
  · rfl

theorem startsKeyword_toUpper (b : Byte) : b.toUpper.startsKeyword = b.startsKeyword := by
  rw [startsKeyword, startsKeyword, Bool.eq_iff_iff, isLetter_iff, isLetter_iff, toNat_toUpper]
  split
  · omega
  · rfl

theorem toUpper_toChar : ∀ b : Byte, b.toChar.toUpper = b.toUpper.toChar :=
  forall_of_fin (by decide +kernel)

/-- A digit has one case, separates nothing and is no letter that gives a base. -/
theorem toChar_of_isDigit : ∀ b : Byte, b.isDigit = true → b.toChar.toUpper = b.toChar ∧
    b.toChar ≠ '_' ∧ b.toChar ∉ ['D', 'H', 'B', 'O', 'Q'] :=
  forall_of_fin (by decide +kernel)

/-- Whether a byte makes an operator of two signs, or a constant of a `%` before it. -/
def continuesOperator (b : Byte) : Bool :=
  b.isBinaryDigit || ['*', '=', '&', '|', '^', '<', '>'].contains b.toChar

end Byte

/-- Whether a byte behind a token of a kind is no part of it. -/
def Kind.endsAt : Kind → Byte → Bool
  | ident, b | directive, b | macroStart, b | macroEnd, b | call _, b => !b.continuesName
  | int, b => !b.continuesNumber
  | operator _, b => !b.continuesOperator
  | _, _ => true

/-- Whether a token of a kind ends before the bytes. -/
def Kind.endsBefore (k : Kind) (rest : List Byte) : Bool := rest.head?.all k.endsAt

/-- Bytes that are all of a class, before a byte that is not. -/
theorem takeWhile_append_of_ends {p : Byte → Bool} {bs rest : List Byte} (h : ∀ b ∈ bs, p b = true)
    (hr : ∀ b ∈ rest.head?, p b = false) : (bs ++ rest).takeWhile p = bs := by
  rw [List.takeWhile_append_of_pos h]
  cases rest with
  | nil => simp
  | cons b rest => rw [List.takeWhile_cons_of_neg (by simp [hr b rfl]), List.append_nil]

theorem Kind.endsAt_of_endsBefore {k : Kind} {rest : List Byte} (h : k.endsBefore rest = true) :
    ∀ b ∈ rest.head?, k.endsAt b = true := by
  intro b hb
  cases rest with
  | nil => cases hb
  | cons c rest =>
    rw [← Option.some.inj hb]
    exact h

/-- What ends where a name does, ends before what goes on with no name. -/
theorem Kind.not_continuesName_of_endsBefore {k : Kind} {rest : List Byte}
    (hk : ∀ b, k.endsAt b = !b.continuesName) (h : k.endsBefore rest = true) :
    ∀ b ∈ rest.head?, b.continuesName = false := by
  intro b hb
  have hends := endsAt_of_endsBefore h b hb
  rwa [hk, Bool.not_eq_true'] at hends

/-! ## Names and keywords -/

namespace Lexeme

theorem name_append {b : Byte} {tail rest : List Byte} (ht : ∀ c ∈ tail, c.continuesName = true)
    (hr : ∀ c ∈ rest.head?, c.continuesName = false) :
    name b (tail ++ rest) = withText .ident (String.ofList (chars (b :: tail))) tail.length := by
  rw [name, takeWhile_append_of_ends ht hr]

/-- A keyword in upper case, behind its dot. -/
theorem keyword_append {b : Byte} {tail rest : List Byte} (hb : b.startsKeyword = true)
    (ht : ∀ c ∈ tail, c.continuesName = true) (hup : ∀ c ∈ b :: tail, c.toUpper = c)
    (hr : ∀ c ∈ rest.head?, c.continuesName = false) :
    keyword (b :: tail ++ rest) =
      match keywordKind (String.ofList (chars (b :: tail))) with
      | .directive =>
        withText .directive (String.ofList ('.' :: chars (b :: tail))) (b :: tail).length
      | kind => plain kind (b :: tail).length := by
  have hword : ∀ c ∈ b :: tail, c.continuesName = true := by
    intro c hc
    rcases List.mem_cons.mp hc with rfl | hc
    · exact Byte.continuesName_of_startsKeyword hb
    · exact ht c hc
  have hchars : (chars (b :: tail)).map Char.toUpper = chars (b :: tail) := by
    rw [chars, List.map_map]
    refine List.map_congr_left fun c hc => ?_
    rw [Function.comp_apply, Byte.toUpper_toChar, hup c hc]
  have hsplit : (b :: (tail ++ rest)).takeWhile (·.continuesName) = b :: tail :=
    takeWhile_append_of_ends hword hr
  unfold keyword
  dsimp only [List.cons_append]
  cases hk : keywordKind (String.ofList (chars (b :: tail))) <;>
    simp only [if_pos hb, hsplit, hchars, hk]

end Lexeme

/-! ## Decimal numbers -/

namespace Decimal

theorem digit_eq {n : Nat} (h : n < 10) : ∃ b : Byte, b.isDigit = true ∧ digit n = b.toChar ∧
    Number.digitValue? (digit n) = some n ∧ (digit n).toUpper = digit n := by
  have : ∀ i : Fin 10, ∃ b : Byte, b.isDigit = true ∧ digit i = b.toChar ∧
      Number.digitValue? (digit i) = some i.val ∧ (digit i).toUpper = digit i := by
    intro i
    exact ⟨UInt8.ofNat (48 + i), by revert i; decide +kernel⟩
  exact this ⟨n, h⟩

end Decimal

namespace Number

theorem naturalFrom?_append (base : Nat) (xs ys : List Char) : ∀ start,
    naturalFrom? base start (xs ++ ys)
      = (naturalFrom? base start xs).bind fun n => naturalFrom? base n ys := by
  induction xs with
  | nil => exact fun start => rfl
  | cons x xs ih =>
    intro start
    rw [List.cons_append, naturalFrom?, naturalFrom?]
    cases digit? base x with
    | none => rfl
    | some d => exact ih _

/-- The decimal digits of a number denote it. -/
theorem naturalFrom?_digits (n : Nat) : naturalFrom? 10 0 (Decimal.digits n) = some n := by
  have one : ∀ {start d : Nat}, d < 10 →
      naturalFrom? 10 start [Decimal.digit d] = some (start * 10 + d) := by
    intro start d hd
    obtain ⟨b, _, _, hv, _⟩ := Decimal.digit_eq hd
    rw [naturalFrom?, digit?, hv, Option.filter_some_pos (by simpa using hd)]
    rfl
  fun_induction Decimal.digits n with
  | case1 n hn => rw [one hn, Nat.zero_mul, Nat.zero_add]
  | case2 n hn ih =>
    rw [naturalFrom?_append, ih, Option.bind_some, one (Nat.mod_lt _ (by omega))]
    exact congrArg some (by omega)

/-- A number is read as far as the word it has to fit into. -/
theorem word?_toInt (v : Int64) : word? v.toInt = some v := by
  have hlow := Int64.le_iff_toInt_le.mp (Int64.minValue_le v)
  have hhigh := Int64.le_iff_toInt_le.mp (Int64.le_maxValue v)
  rw [word?, if_pos ⟨hlow, hhigh⟩, Int64.ofInt_toInt]

theorem toInt_of_word? {i : Int} {v : Int64} (h : word? i = some v) : v.toInt = i := by
  unfold word? at h
  split at h
  · rename_i hi
    rw [← Option.some.inj h]
    exact Int64.toInt_ofInt_of_le hi.1 (Int.lt_add_one_of_le hi.2)
  · cases h

/-- A number without a sign is not negative. -/
theorem toInt_nonneg_of_unsigned? {base : Nat} {cs : List Char} {v : Int64}
    (h : unsigned? base cs = some v) : 0 ≤ v.toInt := by
  unfold unsigned? at h
  cases hn : natural? base cs with
  | none =>
    rw [hn] at h
    cases h
  | some n =>
    rw [hn, Option.bind_some] at h
    rw [toInt_of_word? h]
    exact Int.natCast_nonneg n

theorem toInt_nonneg_of_scanned? {cs : List Char} {v : Int64} (h : scanned? cs = some v) :
    0 ≤ v.toInt := by
  unfold scanned? at h
  dsimp only at h
  split at h
  · exact toInt_nonneg_of_unsigned? h
  · exact toInt_nonneg_of_unsigned? h

/-- A digit is no final letter. -/
theorem scannedSuffixBase?_of_isDigit (digits : List Char) {b : Byte} (h : b.isDigit = true) :
    scannedSuffixBase? digits b.toChar = none := by
  obtain ⟨_, _, hne⟩ := Byte.toChar_of_isDigit b h
  simp only [List.mem_cons, List.not_mem_nil, or_false, not_or] at hne
  simp [scannedSuffixBase?, suffixBase?, hne]

end Number

namespace Decimal

/-- The digits of a number, as bytes. -/
theorem exists_digits (n : Nat) : ∃ b tail, digits n = Lexeme.chars (b :: tail) ∧
    ∀ c ∈ b :: tail, c.isDigit = true := by
  fun_induction digits n with
  | case1 n hn =>
    obtain ⟨b, hb, hd, _⟩ := digit_eq hn
    exact ⟨b, [], by rw [hd]; rfl, by simpa using hb⟩
  | case2 n hn ih =>
    obtain ⟨b, tail, hds, hall⟩ := ih
    obtain ⟨c, hc, hd, _⟩ := digit_eq (Nat.mod_lt n (show 0 < 10 by omega))
    refine ⟨b, tail ++ [c], by rw [hds, hd]; simp [Lexeme.chars], ?_⟩
    rw [← List.cons_append]
    exact List.forall_mem_append.mpr ⟨hall, by simpa using hc⟩

theorem natural?_digits (n : Nat) : Number.natural? 10 (digits n) = some n := by
  obtain ⟨b, tail, hds, -⟩ := exists_digits n
  rw [Number.natural?, if_neg (by rw [hds]; simp [Lexeme.chars]), Number.naturalFrom?_digits]

end Decimal

/-- **Decimal digits read back** where a source has them. -/
theorem Number.scanned?_digits {v : Int64} {n : Nat} (h : v.toInt = n) :
    scanned? (Decimal.digits n) = some v := by
  obtain ⟨b, tail, hds, hall⟩ := Decimal.exists_digits n
  have digit_of_mem : ∀ c ∈ Decimal.digits n, ∃ b : Byte, b.isDigit = true ∧ b.toChar = c := by
    intro c hc
    rw [hds] at hc
    obtain ⟨b, hb, rfl⟩ := List.mem_map.mp hc
    exact ⟨b, hall b hb, rfl⟩
  have hupper : (Decimal.digits n).map Char.toUpper = Decimal.digits n := by
    refine (List.map_congr_left fun c hc => ?_).trans (List.map_id _)
    obtain ⟨b, hb, rfl⟩ := digit_of_mem c hc
    exact (Byte.toChar_of_isDigit b hb).1
  have hplain : dropUnderscores (Decimal.digits n) = Decimal.digits n := by
    refine List.filter_eq_self.mpr fun c hc => ?_
    obtain ⟨b, hb, rfl⟩ := digit_of_mem c hc
    simpa using (Byte.toChar_of_isDigit b hb).2.1
  have hlast : (Decimal.digits n).getLast?.bind
      (scannedSuffixBase? (Decimal.digits n).dropLast) = none := by
    cases hc : (Decimal.digits n).getLast? with
    | none => rfl
    | some c =>
      obtain ⟨b, hb, rfl⟩ := digit_of_mem c (List.mem_of_getLast? hc)
      exact scannedSuffixBase?_of_isDigit _ hb
  unfold scanned?
  rw [hupper, hplain]
  dsimp only
  rw [hlast]
  dsimp only
  rw [unsigned?, natural?, if_neg (by rw [hds]; simp [Lexeme.chars]), naturalFrom?_digits,
    Option.bind_some, ← h, word?_toInt]

/-! ## String constants -/

namespace Quoted

/-- Whether a byte between double quotes stands for itself. -/
def isPlain (b : Byte) : Bool := !b.endsLine && b != .ofChar '"' && b != .ofChar '\\'

/-- A constant that starts with more bytes, each written as it is. -/
def append (bs : List Byte) (q : Quoted) : Quoted :=
  { q with value := bs ++ q.value, width := bs.length + q.width }

theorem read_append_plain {bs : List Byte} (h : ∀ b ∈ bs, isPlain b = true) (rest : List Byte) :
    read (.ofChar '"') (bs ++ rest) = (read (.ofChar '"') rest).append bs := by
  induction bs with
  | nil => simp [append]
  | cons b bs ih =>
    have hb := h b List.mem_cons_self
    simp only [isPlain, Bool.and_eq_true, Bool.not_eq_eq_eq_not, Bool.not_true, bne_iff_ne] at hb
    rw [List.cons_append, read.eq_def]
    simp only [hb, Bool.false_eq_true, if_false, ih fun x hx => h x (List.mem_cons_of_mem _ hx)]
    simp only [cons, append, List.cons_append, List.length_cons]
    congr 1
    omega

/-- An escape of one letter. -/
theorem read_escape {e : Byte} (he : e.endsLine = false) (hx : e ≠ .ofChar 'x')
    (rest : List Byte) :
    read (.ofChar '"') (.ofChar '\\' :: e :: rest)
      = (read (.ofChar '"') rest).cons (escaped e) 2 := by
  rw [read.eq_def]
  simp only [he, hx, if_false, Bool.false_eq_true]
  rfl

theorem of_not_isPlain : ∀ b : Byte, isPlain b = false →
    b.toNat < 128 ∧ escapeChar b.toChar ≠ [b.toChar] :=
  Byte.forall_of_fin (by decide +kernel)

/-- A character that needs no escape is written with bytes that stand for themselves. -/
theorem isPlain_of_mem_encode {c : Char} (h : escapeChar c = [c]) {b : Byte}
    (hb : b ∈ String.utf8EncodeChar c) : isPlain b = true := by
  cases hp : isPlain b with
  | true => rfl
  | false =>
    -- the byte is ASCII, so it is the character itself
    obtain ⟨hascii, hne⟩ := of_not_isPlain b hp
    rw [Utf8.toChar_of_mem_encode hb hascii] at hne
    exact absurd h hne

/-- A character is written as it is, or as an escape of one letter. -/
theorem escapeChar_cases (c : Char) : escapeChar c = [c] ∨
    ∃ e : Byte, (escapeChar c).flatMap String.utf8EncodeChar = [.ofChar '\\', e] ∧
      e.endsLine = false ∧ e ≠ .ofChar 'x' ∧ String.utf8EncodeChar c = [escaped e] := by
  unfold escapeChar
  split
  · exact Or.inr ⟨.ofChar '"', by decide⟩
  · exact Or.inr ⟨.ofChar '\\', by decide⟩
  · exact Or.inr ⟨.ofChar 'n', by decide⟩
  · exact Or.inr ⟨.ofChar 'r', by decide⟩
  · exact Or.inr ⟨.ofChar 't', by decide⟩
  · exact Or.inr ⟨.ofChar '0', by decide⟩
  · exact Or.inl rfl

/-- **What is written between quotes is read back.** -/
theorem read_escaped (cs : List Char) (rest : List Byte) :
    let escaped := (cs.flatMap escapeChar).flatMap String.utf8EncodeChar
    read (.ofChar '"') (escaped ++ .ofChar '"' :: rest)
      = ⟨cs.flatMap String.utf8EncodeChar, escaped.length + 1, .closed⟩ := by
  induction cs with
  | nil =>
    change read (.ofChar '"') (.ofChar '"' :: rest) = ⟨[], 1, .closed⟩
    rw [read.eq_def]
    rfl
  | cons c cs ih =>
    simp only [List.flatMap_cons, List.flatMap_append, List.append_assoc] at ih ⊢
    rcases escapeChar_cases c with hc | ⟨e, hbytes, he, hx, hc⟩
    · rw [hc, List.flatMap_singleton, read_append_plain fun b hb => isPlain_of_mem_encode hc hb, ih]
      simp only [append, List.length_append, Quoted.mk.injEq, true_and, and_true]
      omega
    · rw [hbytes, List.cons_append, List.cons_append, List.nil_append, read_escape he hx, ih, hc]
      simp only [cons, List.length_cons, List.cons_append, List.nil_append, Quoted.mk.injEq,
        true_and, and_true]
      omega

end Quoted

/-- What is written between quotes has no newline in it. -/
theorem Quoted.onLine_escaped {cs : List Char} {b : Byte}
    (h : b ∈ (cs.flatMap escapeChar).flatMap String.utf8EncodeChar) : b.isNewline = false := by
  rw [List.flatMap_assoc] at h
  obtain ⟨c, _, hb⟩ := List.mem_flatMap.mp h
  have hends : b.endsLine = false := by
    rcases escapeChar_cases c with hc | ⟨e, hbytes, he, _⟩
    · rw [hc, List.flatMap_singleton] at hb
      have hplain := isPlain_of_mem_encode hc hb
      simp only [isPlain, Bool.and_eq_true, Bool.not_eq_true'] at hplain
      exact hplain.1.1
    · rw [hbytes] at hb
      simp only [List.mem_cons, List.not_mem_nil, or_false] at hb
      rcases hb with rfl | rfl
      · decide
      · exact he
  simp only [Byte.endsLine, Bool.or_eq_false_iff] at hends
  exact hends.1

/-- **A string constant reads back** from between its quotes. -/
theorem Lexeme.string_quote (s : String) (rest : List Byte) :
    ∃ more, Utf8.bytes (quote s) = Byte.ofChar '"' :: more ∧ (∀ b ∈ more, b.isNewline = false) ∧
      string (more ++ rest) = withText .text s more.length := by
  have hread := Quoted.read_escaped s.toList rest
  refine ⟨(s.toList.flatMap escapeChar).flatMap String.utf8EncodeChar ++ [Byte.ofChar '"'],
    ?_, ?_, ?_⟩
  · rw [quote, Utf8.bytes_ofList, List.cons_append, List.flatMap_cons, List.flatMap_append]
    rfl
  · refine List.forall_mem_append.mpr ⟨?_, List.forall_mem_singleton.mpr rfl⟩
    exact fun b hb => Quoted.onLine_escaped hb
  · rw [List.append_assoc, List.singleton_append, string, hread]
    dsimp only
    rw [show s.toList.flatMap String.utf8EncodeChar = Utf8.bytes s from rfl, Utf8.decode_bytes,
      List.length_append, List.length_singleton]

/-! ## Tokens -/

/-- Kinds that carry no value. -/
def Kind.isMark : Kind → Bool
  | leftParen | rightParen | comma | colon | hash | question | operator _ | macroStart | macroEnd
  | call _ => true
  | _ => false

/-- Kinds and values that the scanner reads inside a line. -/
inductive Readable : Kind → Option Literal → Prop where
  | ident {b : Byte} {tail : List Byte} : b.startsName = true →
      (∀ c ∈ tail, c.continuesName = true) →
      Readable .ident (some (.text (String.ofList (Lexeme.chars (b :: tail)))))
  /-- A keyword in upper case that has no meaning of its own. -/
  | directive {b : Byte} {tail : List Byte} : b.startsKeyword = true →
      (∀ c ∈ tail, c.continuesName = true) → (∀ c ∈ b :: tail, c.toUpper = c) →
      Lexeme.keywordKind (String.ofList (Lexeme.chars (b :: tail))) = .directive →
      Readable .directive (some (.text (String.ofList ('.' :: Lexeme.chars (b :: tail)))))
  | text (s : String) : Readable .text (some (.text s))
  | int {v : Int64} : 0 ≤ v.toInt → Readable .int (some (.int v))
  | mark {k : Kind} : k.isMark = true → Readable k none

namespace Lexeme

theorem reading_ofInt? {v : Option Int64} {extra : Nat} {k : Kind} {l : Option Literal}
    (h : (ofInt? v extra).reading = .ok (k, l)) (hv : ∀ w, v = some w → 0 ≤ w.toInt) :
    Readable k l := by
  cases v with
  | none => cases h
  | some w =>
    cases h
    exact .int (hv w rfl)

theorem isMark_keywordKind (word : String) :
    keywordKind word = .directive ∨ (keywordKind word).isMark = true := by
  unfold keywordKind
  split <;> simp [Kind.isMark]

theorem readable_of_keyword {rest : List Byte} {k : Kind} {l : Option Literal}
    (h : (keyword rest).reading = .ok (k, l)) : Readable k l := by
  cases rest with
  | nil => cases h
  | cons b rest =>
    cases hb : b.startsKeyword with
    | false => simp [keyword, hb, fault] at h
    | true =>
      have hword : (b :: rest).takeWhile (·.continuesName)
          = b :: rest.takeWhile (·.continuesName) :=
        List.takeWhile_cons_of_pos (Byte.continuesName_of_startsKeyword hb)
      have hupper (bs : List Byte) :
          (chars bs).map Char.toUpper = chars (bs.map Byte.toUpper) := by
        simp only [chars, List.map_map]
        exact List.map_congr_left fun c _ => Byte.toUpper_toChar c
      unfold keyword at h
      dsimp only at h
      rw [if_pos hb, hword, hupper, List.map_cons] at h
      generalize htail : (rest.takeWhile (·.continuesName)).map Byte.toUpper = tail at h
      have ht : ∀ c ∈ tail, c.continuesName = true ∧ c.toUpper = c := by
        intro c hc
        rw [← htail] at hc
        obtain ⟨d, hd, rfl⟩ := List.mem_map.mp hc
        exact ⟨by rw [Byte.continuesName_toUpper]; exact List.mem_takeWhile_imp hd,
          Byte.toUpper_toUpper d⟩
      rcases isMark_keywordKind (String.ofList (chars (b.toUpper :: tail))) with hk | hk
      · rw [hk] at h
        cases h
        have hstarts : b.toUpper.startsKeyword = true := by
          rw [Byte.startsKeyword_toUpper]
          exact hb
        refine .directive hstarts (fun c hc => (ht c hc).1) ?_ hk
        exact List.forall_mem_cons.mpr ⟨Byte.toUpper_toUpper b, fun c hc => (ht c hc).2⟩
      · generalize keywordKind (String.ofList (chars (b.toUpper :: tail))) = kind at h hk
        cases kind <;> first | exact absurd hk (by decide) | (cases h; exact .mark hk)

theorem readable_of_string {rest : List Byte} {k : Kind} {l : Option Literal}
    (h : (string rest).reading = .ok (k, l)) : Readable k l := by
  unfold string at h
  dsimp only at h
  split at h
  · cases h
    exact .text _
  · unfold unclosed at h
    split at h <;> cases h

theorem readable_of_character {rest : List Byte} {k : Kind} {l : Option Literal}
    (h : (character rest).reading = .ok (k, l)) : Readable k l := by
  unfold character at h
  dsimp only at h
  split at h
  · rename_i b _ _
    cases h
    have := b.toNat_lt
    refine .int ?_
    rw [Int64.toInt_ofNat_of_lt (by omega)]
    exact Int.natCast_nonneg _
  · cases h
  · unfold unclosed at h
    split at h <;> cases h

theorem readable_of_punctuation {c n : Char} {k : Kind} {l : Option Literal}
    (h : (punctuation c n).reading = .ok (k, l)) : Readable k l := by
  unfold punctuation at h
  split at h <;> cases h <;> exact .mark rfl

/-- **What is read is readable.** -/
theorem readable_of_read {left : Left} {b : Byte} {rest : List Byte} {k : Kind}
    {l : Option Literal} (h : (read left b rest).reading = .ok (k, l)) : Readable k l := by
  have prefixed : ∀ {base isDigit}, (prefixedNumber base isDigit rest).reading = .ok (k, l) →
      Readable k l := by
    intro base isDigit h
    exact reading_ofInt? h fun w hw => Number.toInt_nonneg_of_unsigned? hw
  unfold read at h
  split at h
  · rename_i hb
    cases h
    exact .ident hb fun c hc => by simpa using List.mem_takeWhile_imp hc
  split at h
  · exact reading_ofInt? h fun w hw => Number.toInt_nonneg_of_scanned? hw
  split at h
  · exact readable_of_string h
  · exact readable_of_character h
  · exact readable_of_keyword h
  · split at h
    · exact prefixed h
    · cases h
  · split at h
    · exact prefixed h
    · cases h
      exact .mark rfl
  · exact readable_of_punctuation h

end Lexeme

/-! ## Reading back -/

/-- Kinds whose tokens go on with what a name goes on with. -/
def Kind.isWord : Kind → Bool
  | ident | int => true
  | _ => false

/-- Whether a byte may be the first of a token of a kind. -/
def Kind.startsAt (k : Kind) (b : Byte) : Bool :=
  !b.isBlank && !b.isNewline && b != .ofChar ';' && b.continuesName == k.isWord

/-- A text whose bytes are `b` and then `more` reads back as a kind and a value. -/
structure SpelledBy (source : String) (k : Kind) (l : Option Literal) (b : Byte)
    (more : List Byte) : Prop where
  bytes : Utf8.bytes source = b :: more
  starts : k.startsAt b = true
  onLine : ∀ c ∈ more, c.isNewline = false
  reads : ∀ left rest, k.endsBefore rest = true →
    Lexeme.read left b (more ++ rest) = ⟨.ok (k, l), more.length⟩

/-- What names are made of may begin a word. -/
theorem Kind.startsAt_of_continuesName {k : Kind} {b : Byte} (hk : k.isWord = true)
    (hb : b.continuesName = true) : k.startsAt b = true := by
  obtain ⟨hblank, hnewline, hcomment⟩ := Byte.visible_of_continuesName hb
  simp [startsAt, hblank, hnewline, hcomment, hb, hk]

/-- The bytes of a word are those it was read from. -/
theorem bytes_of_continuesName {bs : List Byte} (h : ∀ b ∈ bs, b.continuesName = true) :
    Utf8.bytes (String.ofList (Lexeme.chars bs)) = bs :=
  Utf8.bytes_ofList_toChar fun b hb => Byte.ascii_of_continuesName (h b hb)

namespace SpelledBy

theorem second_of_ends {op : Operator} {rest : List Byte}
    (h : (Kind.operator op).endsBefore rest = true) :
    rest.head?.elim '\x00' Byte.toChar ∉ ['*', '=', '&', '|', '^', '<', '>'] ∧
      Lexeme.startsWith Byte.isBinaryDigit rest = false := by
  cases rest with
  | nil => exact ⟨by decide, rfl⟩
  | cons b rest =>
    have hb : (Kind.operator op).endsAt b = true := h
    rw [Kind.endsAt, Byte.continuesOperator, Bool.not_or, Bool.and_eq_true, Bool.not_eq_true',
      Bool.not_eq_true'] at hb
    exact ⟨by simpa using hb.2, hb.1⟩

/-- An operator of one sign, which a second sign might change. -/
theorem of_sign {op : Operator} {c : Char} (hbytes : Utf8.bytes op.source = [Byte.ofChar c])
    (hstarts : (Kind.operator op).startsAt (.ofChar c) = true)
    (hread : ∀ left rest, Lexeme.read left (.ofChar c) rest
      = Lexeme.punctuation c (rest.head?.elim '\x00' Byte.toChar))
    (hplain : Lexeme.punctuation c '\x00' = .plain (.operator op)) :
    ∃ b more, SpelledBy op.source (.operator op) none b more := by
  refine ⟨.ofChar c, [], hbytes, hstarts, by simp, fun left rest h => ?_⟩
  rw [List.nil_append, hread, Lexeme.punctuation_of_ends (second_of_ends h).1, hplain]
  rfl

/-- An operator of two signs, which is read whatever follows. -/
theorem of_signs {op : Operator} {c d : Char}
    (hbytes : Utf8.bytes op.source = [Byte.ofChar c, Byte.ofChar d])
    (hstarts : (Kind.operator op).startsAt (.ofChar c) = true)
    (hline : (Byte.ofChar d).isNewline = false)
    (hread : ∀ left rest, Lexeme.read left (.ofChar c) (.ofChar d :: rest)
      = .plain (.operator op) 1) :
    ∃ b more, SpelledBy op.source (.operator op) none b more :=
  ⟨.ofChar c, [.ofChar d], hbytes, hstarts, List.forall_mem_singleton.mpr hline,
    fun left rest _ => hread left rest⟩

/-- **An operator reads back** before bytes that make no other of it. -/
theorem of_operator (op : Operator) :
    ∃ b more, SpelledBy op.source (.operator op) none b more := by
  cases op with
  | plus => exact of_sign (c := '+') (by decide) (by decide) (fun _ _ => rfl) rfl
  | minus => exact of_sign (c := '-') (by decide) (by decide) (fun _ _ => rfl) rfl
  | multiply => exact of_sign (c := '*') (by decide) (by decide) (fun _ _ => rfl) rfl
  | divide => exact of_sign (c := '/') (by decide) (by decide) (fun _ _ => rfl) rfl
  | bitNot => exact of_sign (c := '~') (by decide) (by decide) (fun _ _ => rfl) rfl
  | logicNot => exact of_sign (c := '!') (by decide) (by decide) (fun _ _ => rfl) rfl
  | bitAnd => exact of_sign (c := '&') (by decide) (by decide) (fun _ _ => rfl) rfl
  | bitOr => exact of_sign (c := '|') (by decide) (by decide) (fun _ _ => rfl) rfl
  | bitXor => exact of_sign (c := '^') (by decide) (by decide) (fun _ _ => rfl) rfl
  | eq => exact of_sign (c := '=') (by decide) (by decide) (fun _ _ => rfl) rfl
  | gt => exact of_sign (c := '>') (by decide) (by decide) (fun _ _ => rfl) rfl
  | lt => exact of_sign (c := '<') (by decide) (by decide) (fun _ _ => rfl) rfl
  | modulo =>
    -- the sign of a binary constant, if a digit followed
    refine ⟨.ofChar '%', [], by decide, by decide, by simp, fun left rest h => ?_⟩
    change (if Lexeme.startsWith Byte.isBinaryDigit rest && left.operandMayBegin then _ else _) = _
    rw [(second_of_ends h).2]
    rfl
  | power => exact of_signs (c := '*') (d := '*') (by decide) (by decide) rfl fun _ _ => rfl
  | shiftLeft => exact of_signs (c := '<') (d := '<') (by decide) (by decide) rfl fun _ _ => rfl
  | shiftRight => exact of_signs (c := '>') (d := '>') (by decide) (by decide) rfl fun _ _ => rfl
  | logicAnd => exact of_signs (c := '&') (d := '&') (by decide) (by decide) rfl fun _ _ => rfl
  | logicOr => exact of_signs (c := '|') (d := '|') (by decide) (by decide) rfl fun _ _ => rfl
  | logicXor => exact of_signs (c := '^') (d := '^') (by decide) (by decide) rfl fun _ _ => rfl
  | ne => exact of_signs (c := '<') (d := '>') (by decide) (by decide) rfl fun _ _ => rfl
  | ge => exact of_signs (c := '>') (d := '=') (by decide) (by decide) rfl fun _ _ => rfl
  | le => exact of_signs (c := '<') (d := '=') (by decide) (by decide) rfl fun _ _ => rfl

/-- A keyword with a meaning of its own. -/
theorem of_keyword (source : String) {k : Kind} {b : Byte} {tail : List Byte}
    (hbytes : Utf8.bytes source = Byte.ofChar '.' :: b :: tail) (hb : b.startsKeyword = true)
    (ht : tail.all Byte.continuesName = true)
    (hup : (b :: tail).all (fun c => c.toUpper == c) = true)
    (hk : Lexeme.keywordKind (String.ofList (Lexeme.chars (b :: tail))) = k)
    (hmark : k.isMark = true) (hstarts : k.startsAt (.ofChar '.') = true)
    (hends : ∀ c, k.endsAt c = !c.continuesName) :
    ∃ b more, SpelledBy source k none b more := by
  have ht := List.all_eq_true.mp ht
  have hup : ∀ c ∈ b :: tail, c.toUpper = c := fun c hc => eq_of_beq (List.all_eq_true.mp hup c hc)
  have hword : ∀ c ∈ b :: tail, c.continuesName = true :=
    List.forall_mem_cons.mpr ⟨Byte.continuesName_of_startsKeyword hb, ht⟩
  refine ⟨_, _, hbytes, hstarts, fun c hc => (Byte.visible_of_continuesName (hword c hc)).2.1,
    fun left rest h => ?_⟩
  have hr := Kind.not_continuesName_of_endsBefore hends h
  change Lexeme.keyword (b :: tail ++ rest) = _
  rw [Lexeme.keyword_append hb ht hup hr, hk]
  cases k <;> first | exact absurd hmark (by decide) | rfl

/-- A sign of its own, read whatever follows. -/
theorem of_single (source : String) (c : Byte) {k : Kind} (hbytes : Utf8.bytes source = [c])
    (hstarts : k.startsAt c = true)
    (hread : ∀ left rest, Lexeme.read left c rest = .plain k) :
    ∃ b more, SpelledBy source k none b more :=
  ⟨c, [], hbytes, hstarts, by simp, fun left rest _ => hread left rest⟩

theorem of_mark {k : Kind} (hk : k.isMark = true) (span : Span) :
    ∃ b more, SpelledBy (Token.source ⟨k, none, span⟩) k none b more := by
  cases k with
  | leftParen => exact of_single "(" (.ofChar '(') (by decide) (by decide) fun _ _ => rfl
  | rightParen => exact of_single ")" (.ofChar ')') (by decide) (by decide) fun _ _ => rfl
  | comma => exact of_single "," (.ofChar ',') (by decide) (by decide) fun _ _ => rfl
  | colon => exact of_single ":" (.ofChar ':') (by decide) (by decide) fun _ _ => rfl
  | hash => exact of_single "#" (.ofChar '#') (by decide) (by decide) fun _ _ => rfl
  | question => exact of_single "?" (.ofChar '?') (by decide) (by decide) fun _ _ => rfl
  | operator op => exact of_operator op
  | macroStart =>
    exact of_keyword ".MACRO" rfl (by decide) (by decide) (by decide) (by decide) rfl
      (by decide) fun _ => rfl
  | macroEnd =>
    exact of_keyword ".ENDMACRO" rfl (by decide) (by decide) (by decide) (by decide) rfl
      (by decide) fun _ => rfl
  | call f =>
    cases f with
    | concat =>
      exact of_keyword ".CONCAT" rfl (by decide) (by decide) (by decide) (by decide) rfl
        (by decide) fun _ => rfl
    | left =>
      exact of_keyword ".LEFT" rfl (by decide) (by decide) (by decide) (by decide) rfl
        (by decide) fun _ => rfl
    | mid =>
      exact of_keyword ".MID" rfl (by decide) (by decide) (by decide) (by decide) rfl
        (by decide) fun _ => rfl
    | right =>
      exact of_keyword ".RIGHT" rfl (by decide) (by decide) (by decide) (by decide) rfl
        (by decide) fun _ => rfl
    | string =>
      exact of_keyword ".STRING" rfl (by decide) (by decide) (by decide) (by decide) rfl
        (by decide) fun _ => rfl
  | sep => cases hk
  | eof => cases hk
  | ident => cases hk
  | text => cases hk
  | int => cases hk
  | directive => cases hk

theorem of_ident {b : Byte} {tail : List Byte} (hb : b.startsName = true)
    (ht : ∀ c ∈ tail, c.continuesName = true) :
    ∃ c more, SpelledBy (String.ofList (Lexeme.chars (b :: tail))) .ident
      (some (.text (String.ofList (Lexeme.chars (b :: tail))))) c more := by
  have hword : ∀ c ∈ b :: tail, c.continuesName = true :=
    List.forall_mem_cons.mpr ⟨Byte.continuesName_of_startsName hb, ht⟩
  refine ⟨b, tail, bytes_of_continuesName hword,
    Kind.startsAt_of_continuesName rfl (hword b List.mem_cons_self),
    fun c hc => (Byte.visible_of_continuesName (ht c hc)).2.1, fun left rest h => ?_⟩
  have hr := Kind.not_continuesName_of_endsBefore (fun _ => rfl) h
  rw [Lexeme.read, if_pos hb, Lexeme.name_append ht hr]
  rfl

theorem of_directive {b : Byte} {tail : List Byte} (hb : b.startsKeyword = true)
    (ht : ∀ c ∈ tail, c.continuesName = true) (hup : ∀ c ∈ b :: tail, c.toUpper = c)
    (hk : Lexeme.keywordKind (String.ofList (Lexeme.chars (b :: tail))) = .directive) :
    ∃ c more, SpelledBy (String.ofList ('.' :: Lexeme.chars (b :: tail))) .directive
      (some (.text (String.ofList ('.' :: Lexeme.chars (b :: tail))))) c more := by
  have hword : ∀ c ∈ b :: tail, c.continuesName = true :=
    List.forall_mem_cons.mpr ⟨Byte.continuesName_of_startsKeyword hb, ht⟩
  have hbytes : Utf8.bytes (String.ofList ('.' :: Lexeme.chars (b :: tail)))
      = Byte.ofChar '.' :: b :: tail := by
    rw [Utf8.bytes_ofList, List.flatMap_cons, ← Utf8.bytes_ofList, bytes_of_continuesName hword]
    rfl
  refine ⟨_, _, hbytes, by decide, fun c hc => (Byte.visible_of_continuesName (hword c hc)).2.1,
    fun left rest h => ?_⟩
  have hr := Kind.not_continuesName_of_endsBefore (fun _ => rfl) h
  change Lexeme.keyword (b :: tail ++ rest) = _
  rw [Lexeme.keyword_append hb ht hup hr, hk]
  rfl

theorem of_text (s : String) :
    ∃ c more, SpelledBy (quote s) .text (some (.text s)) c more := by
  obtain ⟨more, hbytes, hline, _⟩ := Lexeme.string_quote s []
  refine ⟨_, more, hbytes, by decide, hline, fun left rest _ => ?_⟩
  obtain ⟨more', hbytes', _, hread⟩ := Lexeme.string_quote s rest
  rw [← (List.cons.inj (hbytes.symm.trans hbytes')).2] at hread
  exact hread

theorem of_int {v : Int64} (hv : 0 ≤ v.toInt) :
    ∃ c more, SpelledBy (Decimal.ofInt64 v) .int (some (.int v)) c more := by
  obtain ⟨n, hn⟩ := Int.eq_ofNat_of_zero_le hv
  obtain ⟨b, tail, hds, hall⟩ := Decimal.exists_digits n
  have hb : b.isDigit = true := hall b List.mem_cons_self
  have hname : ∀ c ∈ b :: tail, c.continuesName = true :=
    fun c hc => Byte.continuesName_of_isDigit (hall c hc)
  have hbytes : Utf8.bytes (Decimal.ofInt64 v) = b :: tail := by
    rw [Decimal.ofInt64, hn]
    change Utf8.bytes (String.ofList (Decimal.digits n)) = _
    rw [hds]
    exact bytes_of_continuesName hname
  refine ⟨b, tail, hbytes, Kind.startsAt_of_continuesName rfl (hname b List.mem_cons_self),
    fun c hc => (Byte.visible_of_continuesName (hname c (List.mem_cons_of_mem _ hc))).2.1,
    fun left rest h => ?_⟩
  have hr : ∀ c ∈ rest.head?, c.continuesNumber = false := fun c hc => by
    simpa [Kind.endsAt] using Kind.endsAt_of_endsBefore h c hc
  have ht : ∀ c ∈ tail, c.continuesNumber = true := fun c hc =>
    Byte.continuesNumber_of_isDigit (hall c (List.mem_cons_of_mem _ hc))
  rw [Lexeme.read, if_neg (by simp [Byte.startsName_of_isDigit hb]), if_pos hb, Lexeme.number,
    takeWhile_append_of_ends ht hr, ← hds, Number.scanned?_digits hn]
  rfl

end SpelledBy

/-- **What is readable reads back** from the way it is written. -/
theorem Readable.spelled {k : Kind} {l : Option Literal} (h : Readable k l) (span : Span) :
    ∃ b more, SpelledBy (Token.source ⟨k, l, span⟩) k l b more := by
  cases h with
  | ident hb ht => exact SpelledBy.of_ident hb ht
  | directive hb ht hup hk => exact SpelledBy.of_directive hb ht hup hk
  | text s => exact SpelledBy.of_text s
  | int hv => exact SpelledBy.of_int hv
  | mark hk => exact SpelledBy.of_mark hk span

end AsmExpand
