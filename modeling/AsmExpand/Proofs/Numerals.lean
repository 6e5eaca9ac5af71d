import AsmExpand.Proofs.ReadBack
import Mathlib.Data.List.Forall2
import Mathlib.Data.Nat.Digits.Defs

/-!
# What digits denote

The readers of digits go through a text from the left and multiply as they go. What the text
denotes is said here without them: its characters are digits of the base, in either case, and
the number is the sum of their values with the powers of the base (`Numeral`). A reader reads
exactly the numerals (`natural?_eq_some_iff`), and exactly those that fit into a word come out
as one (`unsigned?_eq_some_iff`).

A number is written in a *form*: digits of a base with a mark before or behind them. A source
has some of them (`sourceForms`) and the command line some of its own (`argumentForms`).
-/

namespace AsmExpand.Number

/-! ## Digits -/

/-- The digits of all bases, each at the place of its value. -/
def digitChars : List Char := "0123456789abcdefghijklmnopqrstuvwxyz".toList

/-- A character as a digit of the base, a letter in either case, and its value. -/
structure IsDigit (base : Nat) (c : Char) (d : Nat) : Prop where
  lt : d < base
  char : digitChars[d]? = some c ∨ (digitChars.map Char.toUpper)[d]? = some c

/-- Characters of the first half of a byte are bytes. -/
theorem exists_toChar {c : Char} (h : c.toNat < 128) : ∃ b : Byte, b.toChar = c := by
  refine ⟨UInt8.ofNat c.toNat, ?_⟩
  rw [Byte.toChar, Utf8.toNat_ofNat (by omega), Char.ofNat_toNat]

theorem toUpper_of_not_ascii {c : Char} (h : ¬c.toNat < 128) : c.toUpper = c :=
  dif_neg fun hc => h (Nat.lt_of_le_of_lt (UInt32.le_iff_toNat_le.mp hc.2) (by decide))

theorem ascii_of_digitValue? {c : Char} {d : Nat} (h : digitValue? c = some d) : c.toNat < 128 := by
  have ascii : ∀ {z : Char}, c ≤ z → z.toNat < 128 → c.toNat < 128 := fun hle hz =>
    Nat.lt_of_le_of_lt (UInt32.le_iff_toNat_le.mp (Char.le_def.mp hle)) hz
  unfold digitValue? at h
  split at h
  · rename_i hc
    exact ascii hc.2 (by decide)
  split at h
  · rename_i hc
    exact ascii hc.2 (by decide)
  split at h
  · rename_i hc
    exact ascii hc.2 (by decide)
  · cases h

theorem digitValue?_eq_some_iff (c : Char) (d : Nat) : digitValue? c = some d ↔
    digitChars[d]? = some c ∨ (digitChars.map Char.toUpper)[d]? = some c := by
  constructor
  · intro h
    have table : ∀ b : Byte, ∀ d ∈ digitValue? b.toChar, digitChars[d]? = some b.toChar ∨
        (digitChars.map Char.toUpper)[d]? = some b.toChar :=
      Byte.forall_of_fin (by decide +kernel)
    obtain ⟨b, rfl⟩ := exists_toChar (ascii_of_digitValue? h)
    exact table b d h
  · have table : ∀ cs ∈ [digitChars, digitChars.map Char.toUpper], cs.length = 36 ∧
        ∀ i : Fin 36, cs[i.val]?.bind digitValue? = some i.val := by
      decide +kernel
    have value : ∀ cs ∈ [digitChars, digitChars.map Char.toUpper],
        cs[d]? = some c → digitValue? c = some d := by
      intro cs hcs h
      obtain ⟨hlength, hvalue⟩ := table cs hcs
      have hd : d < 36 := hlength ▸ (List.getElem?_eq_some_iff.mp h).1
      have : cs[d]?.bind digitValue? = some d := hvalue ⟨d, hd⟩
      rwa [h] at this
    rintro (h | h)
    · exact value _ List.mem_cons_self h
    · exact value _ (List.mem_cons_of_mem _ List.mem_cons_self) h

theorem digit?_eq_some_iff (base : Nat) (c : Char) (d : Nat) :
    digit? base c = some d ↔ IsDigit base c d := by
  rw [digit?, Option.filter_eq_some_iff, digitValue?_eq_some_iff, decide_eq_true_iff]
  exact ⟨fun h => ⟨h.2, h.1⟩, fun h => ⟨h.char, h.lt⟩⟩

/-- What every digit is, by its value: a letter or a decimal digit, and of the classes of the
scanner. -/
theorem IsDigit.exists_byte {base d : Nat} {c : Char} (h : IsDigit base c d) :
    ∃ b : Byte, b.toChar = c ∧ b.continuesNumber = true ∧ c ∉ ['_', '+', '-'] ∧
      (base = 16 → b.isHexDigit = true) ∧ (base = 10 → b.isDigit = true) ∧
      (base = 2 → b.isBinaryDigit = true) := by
  have table : ∀ b : Byte, ∀ d ∈ digitValue? b.toChar, b.continuesNumber = true ∧
      b.toChar ∉ ['_', '+', '-'] ∧ (d < 16 → b.isHexDigit = true) ∧
      (d < 10 → b.isDigit = true) ∧ (d < 2 → b.isBinaryDigit = true) :=
    Byte.forall_of_fin (by decide +kernel)
  have hv : digitValue? c = some d := (digitValue?_eq_some_iff c d).mpr h.char
  have hlt := h.lt
  obtain ⟨b, rfl⟩ := exists_toChar (ascii_of_digitValue? hv)
  obtain ⟨hword, hsign, hhex, hdecimal, hbinary⟩ := table b d hv
  exact ⟨b, rfl, hword, hsign, fun e => hhex (e ▸ hlt), fun e => hdecimal (e ▸ hlt),
    fun e => hbinary (e ▸ hlt)⟩

/-- Letters count in either case. -/
theorem digit?_toUpper (base : Nat) (c : Char) : digit? base c.toUpper = digit? base c := by
  have table : ∀ b : Byte, digitValue? b.toChar.toUpper = digitValue? b.toChar :=
    Byte.forall_of_fin (by decide +kernel)
  by_cases hc : c.toNat < 128
  · obtain ⟨b, rfl⟩ := exists_toChar hc
    rw [digit?, table b, digit?]
  · rw [toUpper_of_not_ascii hc]

/-! ## Numerals -/

/-- At least one digit of the base, and the number that the digits denote, the most significant
first. -/
structure Numeral (base : Nat) (cs : List Char) (n : Nat) : Prop where
  ne_nil : cs ≠ []
  digits : ∃ ds, List.Forall₂ (IsDigit base) cs ds ∧ n = Nat.ofDigits base ds.reverse

theorem Numeral.isDigit_of_mem {base n : Nat} {cs : List Char} (h : Numeral base cs n) {c : Char}
    (hc : c ∈ cs) : ∃ d, IsDigit base c d := by
  obtain ⟨ds, hds, _⟩ := h.digits
  obtain ⟨i, hi, rfl⟩ := List.getElem_of_mem hc
  exact ⟨_, hds.get hi (hds.length_eq ▸ hi)⟩

theorem Numeral.exists_last {base n : Nat} {cs : List Char} (h : Numeral base cs n) :
    ∃ init last d, cs = init ++ [last] ∧ IsDigit base last d := by
  obtain ⟨init, last, rfl⟩ := (List.eq_nil_or_concat' cs).resolve_left h.ne_nil
  obtain ⟨d, hd⟩ := h.isDigit_of_mem (List.mem_append_right init List.mem_cons_self)
  exact ⟨init, last, d, rfl, hd⟩

/-- Read on from a number, digits count from its last place on. -/
theorem naturalFrom?_eq_some_iff (base : Nat) (cs : List Char) : ∀ start n,
    naturalFrom? base start cs = some n ↔
      ∃ ds, List.Forall₂ (IsDigit base) cs ds ∧ n = Nat.ofDigits base (ds.reverse ++ [start]) := by
  induction cs with
  | nil =>
    intro start n
    rw [naturalFrom?, Option.some.injEq]
    constructor
    · rintro rfl
      exact ⟨[], .nil, by simp [Nat.ofDigits_singleton]⟩
    · rintro ⟨ds, hds, rfl⟩
      cases hds
      simp [Nat.ofDigits_singleton]
  | cons c cs ih =>
    intro start n
    -- the digit joins the number before it, one place further up
    have carry : ∀ d ds, Nat.ofDigits base ((d :: ds).reverse ++ [start])
        = Nat.ofDigits base (ds.reverse ++ [start * base + d]) := by
      intro d ds
      rw [List.reverse_cons, List.append_assoc, List.singleton_append, Nat.ofDigits_append,
        Nat.ofDigits_append, Nat.ofDigits_cons, Nat.ofDigits_singleton, Nat.ofDigits_singleton,
        Nat.add_comm d, Nat.mul_comm base]
    rw [naturalFrom?, Option.bind_eq_some_iff]
    constructor
    · rintro ⟨d, hd, hn⟩
      obtain ⟨ds, hds, rfl⟩ := (ih _ _).mp hn
      exact ⟨d :: ds, .cons ((digit?_eq_some_iff base c d).mp hd) hds, (carry d ds).symm⟩
    · rintro ⟨_, hds, rfl⟩
      cases hds with
      | @cons _ d _ ds hd hds =>
        exact ⟨d, (digit?_eq_some_iff base c d).mpr hd, (ih _ _).mpr ⟨ds, hds, carry d ds⟩⟩

/-- **What is read are the numerals.** -/
theorem natural?_eq_some_iff (base : Nat) (cs : List Char) (n : Nat) :
    natural? base cs = some n ↔ Numeral base cs n := by
  have hzero : ∀ ds : List Nat,
      Nat.ofDigits base (ds.reverse ++ [0]) = Nat.ofDigits base ds.reverse := fun ds =>
    Nat.ofDigits_append_zero _
  cases cs with
  | nil => exact ⟨nofun, fun h => absurd rfl h.ne_nil⟩
  | cons c cs =>
    rw [natural?, List.isEmpty_cons, if_neg (by simp), naturalFrom?_eq_some_iff]
    simp only [hzero]
    exact ⟨fun h => ⟨by simp, h⟩, fun h => h.digits⟩

theorem word?_eq_some_iff (i : Int) (v : Int64) : word? i = some v ↔ v.toInt = i :=
  ⟨toInt_of_word?, fun h => h ▸ word?_toInt v⟩

/-- Only numbers below 2^63 are words. -/
theorem word?_eq_none_iff (n : Nat) : word? n = none ↔ 2 ^ 63 ≤ n := by
  unfold word?
  rw [show Int64.minValue.toInt = -2 ^ 63 from rfl, show Int64.maxValue.toInt = 2 ^ 63 - 1 from rfl]
  split
  · simp only [reduceCtorEq, false_iff]
    omega
  · simp only [true_iff]
    omega

theorem Numeral.unsigned? {base n : Nat} {cs : List Char} (h : Numeral base cs n) :
    unsigned? base cs = word? n := by
  rw [Number.unsigned?, (natural?_eq_some_iff base cs n).mpr h, Option.bind_some]

/-- **The words read are the numerals that fit.** -/
theorem unsigned?_eq_some_iff (base : Nat) (cs : List Char) (v : Int64) :
    unsigned? base cs = some v ↔ ∃ n : Nat, Numeral base cs n ∧ v.toInt = n := by
  simp only [Number.unsigned?, Option.bind_eq_some_iff, natural?_eq_some_iff, word?_eq_some_iff]

theorem natural?_toUpper (base : Nat) (cs : List Char) :
    natural? base (cs.map Char.toUpper) = natural? base cs := by
  have hfrom : ∀ start, naturalFrom? base start (cs.map Char.toUpper)
      = naturalFrom? base start cs := by
    induction cs with
    | nil => exact fun start => rfl
    | cons c cs ih =>
      intro start
      rw [List.map_cons, naturalFrom?, naturalFrom?, digit?_toUpper]
      exact congrArg _ (funext fun d => ih _)
  rw [natural?, natural?, hfrom, List.isEmpty_map]

theorem unsigned?_toUpper (base : Nat) (cs : List Char) :
    unsigned? base (cs.map Char.toUpper) = unsigned? base cs := by
  rw [unsigned?, unsigned?, natural?_toUpper]

/-! ## Forms -/

/-- A way to write a number. -/
inductive Form where
  /-- Decimal digits. -/
  | plain
  /-- Digits of a base behind a mark. -/
  | marked (mark : List Char) (base : Nat)
  /-- Digits of a base before a letter. -/
  | lettered (letter : Char) (base : Nat)
deriving DecidableEq

namespace Form

def base : Form → Nat
  | plain => 10
  | marked _ base => base
  | lettered _ base => base

/-- What stands before the digits. -/
def before : Form → List Char
  | plain => []
  | marked mark _ => mark
  | lettered _ _ => []

/-- What stands behind the digits. -/
def behind : Form → List Char
  | plain => []
  | marked _ _ => []
  | lettered letter _ => [letter]

end Form

/-- The letters behind digits that both readers know. -/
def letteredForms : List Form :=
  [.lettered 'h' 16, .lettered 'H' 16, .lettered 'b' 2, .lettered 'B' 2,
    .lettered 'o' 8, .lettered 'O' 8, .lettered 'q' 8, .lettered 'Q' 8]

/-- The forms of a number in a source. -/
def sourceForms : List Form :=
  .plain :: .lettered 'd' 10 :: .lettered 'D' 10 :: .marked ['$'] 16 :: .marked ['%'] 2 ::
    letteredForms

/-- The forms of a number on the command line. -/
def argumentForms : List Form :=
  .plain :: .marked ['$'] 16 :: .marked ['%'] 2 :: .marked ['0', 'x'] 16 :: .marked ['0', 'X'] 16 ::
    .marked ['0', 'b'] 2 :: .marked ['0', 'B'] 2 :: letteredForms

/-- A number as a form has it in a source. A digit of base 10 comes first if no mark does, and
underscores stand anywhere behind the first digit. -/
inductive Form.Spells (f : Form) : List Char → Nat → Prop where
  | intro {first : Char} {digits tail : List Char} {n : Nat} :
      Numeral f.base (first :: digits) n → (f.before = [] → ∃ d, IsDigit 10 first d) →
      dropUnderscores tail = digits ++ f.behind → f.Spells (f.before ++ first :: tail) n

/-- A spelling of a number in a source. -/
def Spells (cs : List Char) (n : Nat) : Prop := ∃ f ∈ sourceForms, f.Spells cs n

/-- What is so for some characters of every form, checked form by form. -/
theorem forall_chars_of_all {forms : List Form} {part : Form → List Char} {P : Char → Prop}
    [DecidablePred P] (h : (forms.all fun f => (part f).all fun c => P c) = true) :
    ∀ f ∈ forms, ∀ c ∈ part f, P c := by
  intro f hf c hc
  exact of_decide_eq_true (List.all_eq_true.mp (List.all_eq_true.mp h f hf) c hc)

/-! ## Final letters -/

/-- The characters that a letter in upper case comes from. -/
theorem eq_of_toUpper {c z : Char} (h : c.toUpper = z) : c = z ∨ c = z.toLower := by
  have table : ∀ b : Byte, b.toChar = b.toChar.toUpper ∨ b.toChar = b.toChar.toUpper.toLower :=
    Byte.forall_of_fin (by decide +kernel)
  by_cases hc : c.toNat < 128
  · obtain ⟨b, rfl⟩ := exists_toChar hc
    exact h ▸ table b
  · exact Or.inl (toUpper_of_not_ascii hc ▸ h)

theorem isBinary_iff (c : Char) : isBinary c = true ↔ ∃ d, IsDigit 2 c d := by
  constructor
  · rw [isBinary, Bool.or_eq_true, beq_iff_eq, beq_iff_eq]
    rintro (rfl | rfl)
    · exact ⟨0, (digit?_eq_some_iff 2 '0' 0).mp rfl⟩
    · exact ⟨1, (digit?_eq_some_iff 2 '1' 1).mp rfl⟩
  · have table : ∀ b : Byte, b.isBinaryDigit = true → isBinary b.toChar = true :=
      Byte.forall_of_fin (by decide +kernel)
    rintro ⟨d, hd⟩
    obtain ⟨b, rfl, -, -, -, -, hb⟩ := hd.exists_byte
    exact table b (hb rfl)

theorem all_isBinary_iff (ds : List Char) :
    ds.all isBinary = true ↔ ∀ c ∈ ds, ∃ d, IsDigit 2 c d := by
  simp only [List.all_eq_true, isBinary_iff]

theorem suffixBase?_eq_some_iff (ds : List Char) (c : Char) (base : Nat) :
    suffixBase? ds c.toUpper = some base ↔
      .lettered c base ∈ letteredForms ∧ (base = 2 → ∀ x ∈ ds, ∃ d, IsDigit 2 x d) := by
  rw [← all_isBinary_iff]
  constructor
  · intro h
    unfold suffixBase? at h
    split at h
    · rename_i hc
      obtain rfl := Option.some.inj h
      rcases eq_of_toUpper hc with rfl | rfl <;> exact ⟨by decide, fun h => absurd h (by decide)⟩
    · rename_i hc
      split at h
      · rename_i hds
        obtain rfl := Option.some.inj h
        rcases eq_of_toUpper hc with rfl | rfl <;> exact ⟨by decide, fun _ => hds⟩
      · cases h
    · rename_i hc
      obtain rfl := Option.some.inj h
      rcases eq_of_toUpper hc with rfl | rfl <;> exact ⟨by decide, fun h => absurd h (by decide)⟩
    · rename_i hc
      obtain rfl := Option.some.inj h
      rcases eq_of_toUpper hc with rfl | rfl <;> exact ⟨by decide, fun h => absurd h (by decide)⟩
    · cases h
  · rintro ⟨hmem, hds⟩
    simp only [letteredForms, List.mem_cons, Form.lettered.injEq, List.not_mem_nil,
      or_false] at hmem
    rcases hmem with h | h | h | h | h | h | h | h <;> obtain ⟨rfl, rfl⟩ := h
    · rfl
    · rfl
    · exact if_pos (hds rfl)
    · exact if_pos (hds rfl)
    · rfl
    · rfl
    · rfl
    · rfl

theorem scannedSuffixBase?_eq_some_iff (ds : List Char) (c : Char) (base : Nat) :
    scannedSuffixBase? ds c.toUpper = some base ↔
      .lettered c base ∈ sourceForms ∧ (base = 2 → ∀ x ∈ ds, ∃ d, IsDigit 2 x d) := by
  by_cases hc : c.toUpper = 'D'
  · rw [hc, scannedSuffixBase?, Option.some.injEq]
    constructor
    · rintro rfl
      rcases eq_of_toUpper hc with rfl | rfl <;> exact ⟨by decide, fun h => absurd h (by decide)⟩
    · rintro ⟨hmem, -⟩
      rcases eq_of_toUpper hc with rfl | rfl <;>
        simpa [sourceForms, letteredForms, eq_comm] using hmem
  · have hne : c ≠ 'd' ∧ c ≠ 'D' :=
      ⟨fun e => hc (by rw [e]; decide), fun e => hc (by rw [e]; decide)⟩
    rw [scannedSuffixBase?, suffixBase?_eq_some_iff]
    · simp [sourceForms, hne]
    · exact hc

/-! ## What a source spells -/

theorem dropUnderscores_toUpper (cs : List Char) :
    dropUnderscores (cs.map Char.toUpper) = (dropUnderscores cs).map Char.toUpper := by
  have hcase : ((· != '_') ∘ Char.toUpper) = (· != '_') := by
    funext c
    rw [Function.comp_apply, Bool.eq_iff_iff, bne_iff_ne, bne_iff_ne, Ne, Ne, not_iff_not]
    constructor
    · intro h
      rcases eq_of_toUpper h with rfl | rfl <;> decide
    · rintro rfl
      decide
  rw [dropUnderscores, List.filter_map, hcase, dropUnderscores]

theorem scannedSuffixBase?_toUpper (ds : List Char) (c : Char) :
    scannedSuffixBase? (ds.map Char.toUpper) c = scannedSuffixBase? ds c := by
  have hall : (ds.map Char.toUpper).all isBinary = ds.all isBinary := by
    rw [Bool.eq_iff_iff, all_isBinary_iff, all_isBinary_iff, List.forall_mem_map]
    simp only [← digit?_eq_some_iff, digit?_toUpper]
  unfold scannedSuffixBase? suffixBase?
  rw [hall]

/-- A source is read without a regard for case. -/
theorem scanned?_eq (cs : List Char) : scanned? cs =
    match (dropUnderscores cs).getLast?.bind fun c =>
      scannedSuffixBase? (dropUnderscores cs).dropLast c.toUpper with
    | some base => unsigned? base (dropUnderscores cs).dropLast
    | none => unsigned? 10 (dropUnderscores cs) := by
  unfold scanned?
  rw [dropUnderscores_toUpper]
  generalize dropUnderscores cs = w
  have hbase : (w.map Char.toUpper).getLast?.bind (scannedSuffixBase? (w.map Char.toUpper).dropLast)
      = w.getLast?.bind fun c => scannedSuffixBase? w.dropLast c.toUpper := by
    rw [List.getLast?_map, ← List.map_dropLast, Option.bind_map]
    exact congrArg _ (funext fun c => scannedSuffixBase?_toUpper _ _)
  dsimp only
  rw [hbase, ← List.map_dropLast]
  cases w.getLast?.bind fun c => scannedSuffixBase? w.dropLast c.toUpper with
  | some base => exact unsigned?_toUpper base _
  | none => exact unsigned?_toUpper 10 _

theorem mem_dropUnderscores {cs : List Char} {c : Char} (hc : c ∈ cs) (hu : c ≠ '_') :
    c ∈ dropUnderscores cs :=
  List.mem_filter.mpr ⟨hc, by simpa using hu⟩

theorem ne_underscore_of_isDigit {base d : Nat} {c : Char} (h : IsDigit base c d) : c ≠ '_' := by
  obtain ⟨b, -, -, hc, -⟩ := h.exists_byte
  rintro rfl
  exact hc (by decide)

theorem dropUnderscores_cons {base d : Nat} {c : Char} (h : IsDigit base c d) (cs : List Char) :
    dropUnderscores (c :: cs) = c :: dropUnderscores cs :=
  List.filter_cons_of_pos (by simpa using ne_underscore_of_isDigit h)

theorem IsDigit.mono {base base' d : Nat} {c : Char} (h : IsDigit base c d) (hle : base ≤ base') :
    IsDigit base' c d :=
  ⟨Nat.lt_of_lt_of_le h.lt hle, h.char⟩

/-- The letters of the forms are no decimal digits. -/
theorem not_isDigit_of_mem_behind {f : Form} (hf : f ∈ sourceForms) {c : Char} (hc : c ∈ f.behind)
    (d : Nat) : ¬IsDigit 10 c d := by
  have table : ∀ f ∈ sourceForms, ∀ c ∈ f.behind, digit? 10 c = none :=
    forall_chars_of_all (by decide)
  rw [← digit?_eq_some_iff, table f hf c hc]
  exact nofun

/-- A decimal digit is no final letter. -/
theorem suffixBase?_of_digit (ds : List Char) {c : Char} {d : Nat} (h : IsDigit 10 c d) :
    suffixBase? ds c.toUpper = none := by
  refine Option.eq_none_iff_forall_ne_some.mpr fun base hbase => ?_
  have hform := ((suffixBase?_eq_some_iff ds c base).mp hbase).1
  have hsource : .lettered c base ∈ sourceForms := by simp [sourceForms, hform]
  exact not_isDigit_of_mem_behind hsource List.mem_cons_self d h

theorem scannedSuffixBase?_of_digit (ds : List Char) {c : Char} {d : Nat} (h : IsDigit 10 c d) :
    scannedSuffixBase? ds c.toUpper = none := by
  refine Option.eq_none_iff_forall_ne_some.mpr fun base hbase => ?_
  have hform := ((scannedSuffixBase?_eq_some_iff ds c base).mp hbase).1
  exact not_isDigit_of_mem_behind hform List.mem_cons_self d h

theorem unmarked_cases {f : Form} (hf : f ∈ sourceForms) (hb : f.before = []) :
    f = .plain ∨ ∃ letter base, f = .lettered letter base := by
  cases f with
  | plain => exact Or.inl rfl
  | lettered letter base => exact Or.inr ⟨letter, base, rfl⟩
  | marked mark base =>
    obtain rfl : mark = [] := hb
    simp [sourceForms, letteredForms] at hf

/-- The letter behind the digits, if there is one, gives the base. -/
theorem scanned?_of_numeral {f : Form} (hf : f ∈ sourceForms) (hb : f.before = [])
    {first : Char} {digits tail : List Char} {n : Nat} (hn : Numeral f.base (first :: digits) n)
    (ht : dropUnderscores tail = digits ++ f.behind) : scanned? (first :: tail) = word? n := by
  obtain ⟨d, hd⟩ := hn.isDigit_of_mem List.mem_cons_self
  rw [scanned?_eq, dropUnderscores_cons hd, ht, ← List.cons_append]
  rcases unmarked_cases hf hb with rfl | ⟨letter, base, rfl⟩
  · rw [Form.behind, List.append_nil]
    obtain ⟨init, last, e, hlast, he⟩ := hn.exists_last
    rw [hlast] at hn ⊢
    rw [List.getLast?_concat, Option.bind_some, scannedSuffixBase?_of_digit _ he]
    exact hn.unsigned?
  · have hsuffix : scannedSuffixBase? (first :: digits) letter.toUpper = some base :=
      (scannedSuffixBase?_eq_some_iff _ _ _).mpr
        ⟨hf, fun h2 x hx => by subst h2; exact hn.isDigit_of_mem hx⟩
    rw [Form.behind, List.getLast?_concat, Option.bind_some, List.dropLast_concat, hsuffix]
    exact hn.unsigned?

/-- What is read of characters that begin with a decimal digit, they spell. -/
theorem spells_of_scanned? {first : Char} {tail : List Char} {v : Int64}
    (hfirst : ∃ d, IsDigit 10 first d) (h : scanned? (first :: tail) = some v) :
    ∃ n : Nat, v.toInt = n ∧ Spells (first :: tail) n := by
  obtain ⟨d, hd⟩ := hfirst
  rw [scanned?_eq, dropUnderscores_cons hd] at h
  split at h
  · rename_i base hsuffix
    obtain ⟨c, hc, hsuffix⟩ := Option.bind_eq_some_iff.mp hsuffix
    obtain ⟨n, hn, hv⟩ := (unsigned?_eq_some_iff _ _ _).mp h
    have hform := ((scannedSuffixBase?_eq_some_iff _ _ _).mp hsuffix).1
    rcases List.eq_nil_or_concat' (dropUnderscores tail) with hnil | ⟨digits, last, ht⟩
    · exact absurd (by rw [hnil]; rfl) hn.ne_nil
    · rw [ht, ← List.cons_append, List.getLast?_concat, Option.some.injEq] at hc
      rw [ht, ← List.cons_append, List.dropLast_concat] at hn
      exact ⟨n, hv, .lettered c base, hform, .intro hn (fun _ => ⟨d, hd⟩) (hc ▸ ht)⟩
  · obtain ⟨n, hn, hv⟩ := (unsigned?_eq_some_iff _ _ _).mp h
    exact ⟨n, hv, .plain, List.mem_cons_self,
      .intro hn (fun _ => ⟨d, hd⟩) (List.append_nil _).symm⟩

end AsmExpand.Number
