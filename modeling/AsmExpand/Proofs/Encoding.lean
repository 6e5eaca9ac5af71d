import AsmExpand.Text.Utf8

/-!
# Texts survive their encoding

The reader of UTF-8 refuses nothing, so it is not clear that what it reads of a
well-formed sequence is the character that was written. It is: from a reader with no
sequence open, the bytes of a character lead to a reader that has read it and has none
open either (`Utf8.foldl_next_encode`), one case for each length of a sequence. So
`decode` undoes `bytes` (`Utf8.decode_bytes`).

An ASCII character is its own byte, and the bytes of any other character are none of
ASCII (`Utf8.not_ascii_of_mem_encode`). So what is written in ASCII is found again in the
bytes, whatever stands between.
-/

namespace AsmExpand

/-- The number of the character of a byte is that of the byte. -/
theorem Byte.toNat_toChar (b : Byte) : b.toChar.toNat = b.toNat := by
  have hvalid : b.toNat.isValidChar := Or.inl (Nat.lt_of_lt_of_le b.toNat_lt (by decide))
  rw [toChar, Char.ofNat, dif_pos hvalid]
  rfl

namespace Utf8

/-! ## Single bytes -/

theorem toNat_ofNat {n : Nat} (h : n < 256) : (UInt8.ofNat n).toNat = n := by
  rw [UInt8.toNat_ofNat', Nat.mod_eq_of_lt h]

/-- The byte of a number is the byte of the same number. -/
theorem ofNat_eq_iff {n : Nat} (h : n < 256) (b : Byte) : UInt8.ofNat n = b ↔ n = b.toNat := by
  rw [← UInt8.toNat_inj, toNat_ofNat h]

theorem ofNat_lt_iff {n : Nat} (h : n < 256) (b : Byte) : UInt8.ofNat n < b ↔ n < b.toNat := by
  rw [UInt8.lt_iff_toNat_lt, toNat_ofNat h]

/-- What a first byte announces, by its number. -/
theorem lead?_ofNat {n : Nat} (h : n < 256) : lead? (UInt8.ofNat n) =
    if n < 0x80 then some ⟨n, []⟩
    else if n < 0xC2 then none
    else if n < 0xE0 then some ⟨n - 0xC0, [tailRange]⟩
    else if n = 0xE0 then some ⟨0, [⟨0xA0, 0xBF⟩, tailRange]⟩
    else if n = 0xED then some ⟨0xD, [⟨0x80, 0x9F⟩, tailRange]⟩
    else if n < 0xF0 then some ⟨n - 0xE0, [tailRange, tailRange]⟩
    else if n = 0xF0 then some ⟨0, [⟨0x90, 0xBF⟩, tailRange, tailRange]⟩
    else if n < 0xF4 then some ⟨n - 0xF0, [tailRange, tailRange, tailRange]⟩
    else if n = 0xF4 then some ⟨4, [⟨0x80, 0x8F⟩, tailRange, tailRange]⟩
    else none := by
  unfold lead?
  simp only [ofNat_lt_iff h, ofNat_eq_iff h, toNat_ofNat h]
  rfl

/-- A first byte of three announces a second byte as the number has it: no overlong form
and no surrogate. -/
theorem exists_lead?_three {v : Nat} (hlow : 0x800 ≤ v) (hhigh : v ≤ 0xFFFF)
    (hvalid : v < 0xD800 ∨ 0xDFFF < v) :
    ∃ range : Range, lead? (UInt8.ofNat (v / 4096 % 16 + 224))
        = some ⟨v / 4096, [range, tailRange]⟩ ∧
      range.low.toNat ≤ v / 64 % 64 + 128 ∧ v / 64 % 64 + 128 ≤ range.high.toNat := by
  rw [lead?_ofNat (by omega), if_neg (by omega), if_neg (by omega), if_neg (by omega)]
  by_cases h0 : v / 4096 = 0
  · rw [if_pos (by omega), h0]
    exact ⟨_, rfl, show 160 ≤ _ by omega, show _ ≤ 191 by omega⟩
  by_cases hd : v / 4096 = 13
  · rw [if_neg (by omega), if_pos (by omega), hd]
    exact ⟨_, rfl, show 128 ≤ _ by omega, show _ ≤ 159 by omega⟩
  · rw [if_neg (by omega), if_neg (by omega), if_pos (by omega),
      show v / 4096 % 16 + 224 - 0xE0 = v / 4096 by omega]
    exact ⟨_, rfl, show 128 ≤ _ by omega, show _ ≤ 191 by omega⟩

/-- A first byte of four announces a second byte as the number has it: no overlong form
and nothing past the last code point. -/
theorem exists_lead?_four {v : Nat} (hlow : 0x10000 ≤ v) (hhigh : v < 0x110000) :
    ∃ range : Range, lead? (UInt8.ofNat (v / 262144 % 8 + 240))
        = some ⟨v / 262144, [range, tailRange, tailRange]⟩ ∧
      range.low.toNat ≤ v / 4096 % 64 + 128 ∧ v / 4096 % 64 + 128 ≤ range.high.toNat := by
  rw [lead?_ofNat (by omega), if_neg (by omega), if_neg (by omega), if_neg (by omega),
    if_neg (by omega), if_neg (by omega), if_neg (by omega)]
  by_cases h0 : v / 262144 = 0
  · rw [if_pos (by omega), h0]
    exact ⟨_, rfl, show 144 ≤ _ by omega, show _ ≤ 191 by omega⟩
  by_cases h4 : v / 262144 = 4
  · rw [if_neg (by omega), if_neg (by omega), if_pos (by omega), h4]
    exact ⟨_, rfl, show 128 ≤ _ by omega, show _ ≤ 143 by omega⟩
  · rw [if_neg (by omega), if_pos (by omega),
      show v / 262144 % 8 + 240 - 0xF0 = v / 262144 by omega]
    exact ⟨_, rfl, show 128 ≤ _ by omega, show _ ≤ 191 by omega⟩

namespace Reader

/-- A first byte that announces more opens a sequence. -/
theorem next_of_lead {read : List Char} {b : Byte} {bits : Nat} {range : Range} {due : List Range}
    (h : lead? b = some ⟨bits, range :: due⟩) :
    next { read := read } b = ⟨read, some ⟨bits, range :: due⟩⟩ := by
  simp only [next, start, h]

/-- A byte in the range that is due continues the open sequence. -/
theorem next_of_due {read : List Char} {bits n : Nat} {range : Range} {due : List Range}
    (h : n < 256) (hlow : range.low.toNat ≤ n) (hhigh : n ≤ range.high.toNat) :
    next ⟨read, some ⟨bits, range :: due⟩⟩ (UInt8.ofNat n) =
      if due.isEmpty then { read := Char.ofNat (bits * 64 + n % 64) :: read }
      else ⟨read, some ⟨bits * 64 + n % 64, due⟩⟩ := by
  have hholds : range.holds (UInt8.ofNat n) = true := by
    simp [Range.holds, UInt8.le_iff_toNat_le, toNat_ofNat h, hlow, hhigh]
  simp only [next, hholds, if_true, toNat_ofNat h]

/-- A byte that may be any continuation. -/
theorem next_of_tail {read : List Char} {bits n : Nat} {due : List Range} (h : n < 64) :
    next ⟨read, some ⟨bits, tailRange :: due⟩⟩ (UInt8.ofNat (n + 128)) =
      if due.isEmpty then { read := Char.ofNat (bits * 64 + n) :: read }
      else ⟨read, some ⟨bits * 64 + n, due⟩⟩ := by
  rw [next_of_due (by omega) (show 128 ≤ _ by omega) (show _ ≤ 191 by omega),
    show (n + 128) % 64 = n by omega]

/-- **The bytes of a character lead to a reader that has read it.** -/
theorem foldl_next_encode (c : Char) (read : List Char) :
    (String.utf8EncodeChar c).foldl next { read := read } = { read := c :: read } := by
  have hvalid : c.val.toNat < 0xD800 ∨ 0xDFFF < c.val.toNat ∧ c.val.toNat < 0x110000 := c.valid
  have hc : Char.ofNat c.val.toNat = c := Char.ofNat_toNat c
  unfold String.utf8EncodeChar
  dsimp only
  generalize c.val.toNat = v at *
  split
  · simp only [List.foldl_cons, List.foldl_nil, next, start]
    rw [lead?_ofNat (by omega), if_pos (by omega)]
    simp only [hc]
  split
  · have hlead : lead? (UInt8.ofNat (v / 64 % 32 + 192)) = some ⟨v / 64, [tailRange]⟩ := by
      rw [lead?_ofNat (by omega), if_neg (by omega), if_neg (by omega), if_pos (by omega),
        show v / 64 % 32 + 192 - 0xC0 = v / 64 by omega]
    simp only [List.foldl_cons, List.foldl_nil]
    rw [next_of_lead hlead, next_of_tail (by omega), List.isEmpty_nil, if_pos rfl,
      show v / 64 * 64 + v % 64 = v by omega, hc]
  split
  · obtain ⟨range, hlead, hlow, hhigh⟩ := exists_lead?_three (v := v) (by omega) (by omega)
      (by omega)
    simp only [List.foldl_cons, List.foldl_nil]
    rw [next_of_lead hlead, next_of_due (by omega) hlow hhigh, List.isEmpty_cons,
      if_neg Bool.false_ne_true, next_of_tail (by omega), List.isEmpty_nil, if_pos rfl,
      show (v / 4096 * 64 + (v / 64 % 64 + 128) % 64) * 64 + v % 64 = v by omega, hc]
  · obtain ⟨range, hlead, hlow, hhigh⟩ := exists_lead?_four (v := v) (by omega) (by omega)
    simp only [List.foldl_cons, List.foldl_nil]
    rw [next_of_lead hlead, next_of_due (by omega) hlow hhigh, List.isEmpty_cons,
      if_neg Bool.false_ne_true, next_of_tail (by omega), List.isEmpty_cons,
      if_neg Bool.false_ne_true, next_of_tail (by omega), List.isEmpty_nil, if_pos rfl,
      show ((v / 262144 * 64 + (v / 4096 % 64 + 128) % 64) * 64 + v / 64 % 64) * 64 + v % 64 = v
        by omega, hc]

end Reader

/-- **What is read of the bytes of a text is the text.** -/
theorem decode_bytes (s : String) : decode (bytes s) = s := by
  have hread : ∀ (cs read : List Char),
      (cs.flatMap String.utf8EncodeChar).foldl Reader.next { read := read }
        = { read := cs.reverse ++ read } := by
    intro cs
    induction cs with
    | nil => exact fun _ => rfl
    | cons c cs ih =>
      intro read
      rw [List.flatMap_cons, List.foldl_append, Reader.foldl_next_encode, ih]
      simp
  rw [decode, bytes, hread]
  simp [Reader.finish]

/-! ## ASCII -/

/-- An ASCII byte stands for its own character only. -/
theorem toChar_of_mem_encode {c : Char} {b : Byte} (h : b ∈ String.utf8EncodeChar c)
    (hb : b.toNat < 128) : b.toChar = c := by
  -- the bytes of longer sequences lie above the ASCII range
  have high : ∀ {n : Nat}, n < 256 → 128 ≤ n → b ≠ UInt8.ofNat n := by
    intro n hn hle e
    rw [e, toNat_ofNat hn] at hb
    omega
  have hvalid : c.val.toNat < 0x110000 := by
    have : c.val.toNat < 0xD800 ∨ 0xDFFF < c.val.toNat ∧ c.val.toNat < 0x110000 := c.valid
    omega
  have hc : Char.ofNat c.val.toNat = c := Char.ofNat_toNat c
  unfold String.utf8EncodeChar at h
  dsimp only at h
  generalize c.val.toNat = v at *
  split at h
  · rw [List.mem_singleton.mp h, Byte.toChar, toNat_ofNat (by omega), hc]
  split at h
  · simp only [List.mem_cons, List.not_mem_nil, or_false] at h
    rcases h with h | h <;> exact absurd h (high (by omega) (by omega))
  split at h
  · simp only [List.mem_cons, List.not_mem_nil, or_false] at h
    rcases h with h | h | h <;> exact absurd h (high (by omega) (by omega))
  · simp only [List.mem_cons, List.not_mem_nil, or_false] at h
    rcases h with h | h | h | h <;> exact absurd h (high (by omega) (by omega))

/-- An ASCII character is its own byte. -/
theorem encode_toChar {b : Byte} (h : b.toNat < 128) : String.utf8EncodeChar b.toChar = [b] := by
  have hv : b.toChar.val.toNat = b.toNat := b.toNat_toChar
  unfold String.utf8EncodeChar
  dsimp only
  rw [hv, if_pos (by omega), UInt8.ofNat_toNat]

theorem bytes_ofList (cs : List Char) :
    bytes (String.ofList cs) = cs.flatMap String.utf8EncodeChar := by
  rw [bytes, String.toList_ofList]

/-- ASCII bytes are the bytes of their characters. -/
theorem bytes_ofList_toChar {bs : List Byte} (h : ∀ b ∈ bs, b.toNat < 128) :
    bytes (String.ofList (bs.map Byte.toChar)) = bs := by
  rw [bytes_ofList]
  induction bs with
  | nil => rfl
  | cons b bs ih =>
    rw [List.map_cons, List.flatMap_cons, encode_toChar (h b List.mem_cons_self),
      ih fun x hx => h x (List.mem_cons_of_mem _ hx), List.singleton_append]

end Utf8

end AsmExpand
