import AsmExpand.CommandLine.Config
import AsmExpand.Proofs.Numerals

/-!
# Numbers on the command line

A text is read in one of the forms of the command line, its digits with a sign of their own
(`magnitude?_form`). What is accepted is therefore a documented form, a minus sign before it or
not, unless there is a further sign in the text (`arguments_read`).
-/

namespace AsmExpand

namespace Number

/-! ## Signs -/

/-- A sign, or none. -/
inductive Sign where
  | none | plus | minus
deriving DecidableEq

namespace Sign

def chars : Sign → List Char
  | none => []
  | plus => ['+']
  | minus => ['-']

/-- A number with a sign. -/
def apply : Sign → Nat → Int
  | none, n => n
  | plus, n => n
  | minus, n => -n

end Sign

/-- A digit is no sign. -/
theorem ne_sign_of_isDigit {base d : Nat} {c : Char} (h : IsDigit base c d) :
    c ≠ '+' ∧ c ≠ '-' := by
  obtain ⟨b, -, -, hc, -⟩ := h.exists_byte
  simp only [List.mem_cons, List.not_mem_nil, or_false, not_or] at hc
  exact hc.2

/-- Behind a digit no sign is looked for. -/
theorem signed?_of_isDigit {base base' d : Nat} {c : Char} (h : IsDigit base' c d)
    (cs : List Char) : signed? base (c :: cs) = unsigned? base (c :: cs) := by
  obtain ⟨hplus, hminus⟩ := ne_sign_of_isDigit h
  rw [signed?]
  · exact fun _ e => hminus (List.cons.inj e).1
  · exact fun _ e => hplus (List.cons.inj e).1

/-- **The words read with a sign are the numerals with a sign that fit.** -/
theorem signed?_eq_some_iff (base : Nat) (cs : List Char) (v : Int64) :
    signed? base cs = some v ↔
      ∃ (own : Sign) (digits : List Char) (n : Nat),
        cs = own.chars ++ digits ∧ Numeral base digits n ∧ v.toInt = own.apply n := by
  constructor
  · intro h
    unfold signed? at h
    split at h
    · rename_i digits
      obtain ⟨n, hn, hv⟩ := Option.bind_eq_some_iff.mp h
      exact ⟨.minus, digits, n, rfl, (natural?_eq_some_iff _ _ _).mp hn, toInt_of_word? hv⟩
    · rename_i digits
      obtain ⟨n, hn, hv⟩ := (unsigned?_eq_some_iff _ _ _).mp h
      exact ⟨.plus, digits, n, rfl, hn, hv⟩
    · obtain ⟨n, hn, hv⟩ := (unsigned?_eq_some_iff _ _ _).mp h
      exact ⟨.none, cs, n, rfl, hn, hv⟩
  · rintro ⟨own, digits, n, rfl, hn, hv⟩
    cases own with
    | none =>
      obtain ⟨c, cs, rfl⟩ := List.exists_cons_of_ne_nil hn.ne_nil
      obtain ⟨d, hd⟩ := hn.isDigit_of_mem List.mem_cons_self
      exact (signed?_of_isDigit hd cs).trans ((unsigned?_eq_some_iff _ _ _).mpr ⟨n, hn, hv⟩)
    | plus => exact (unsigned?_eq_some_iff _ _ _).mpr ⟨n, hn, hv⟩
    | minus =>
      change (natural? base digits).bind _ = _
      rw [(natural?_eq_some_iff _ _ _).mpr hn, Option.bind_some, word?_eq_some_iff]
      exact hv

/-! ## Forms -/

/-- **A text is read as digits of one of the forms**, a sign before them or not. -/
theorem magnitude?_form (cs : List Char) : ∃ f ∈ argumentForms, ∃ body,
    cs = f.before ++ body ++ f.behind ∧ magnitude? cs = signed? f.base body := by
  unfold magnitude?
  split
  · exact ⟨.plain, by decide, [], rfl, rfl⟩
  · exact ⟨.marked ['$'] 16, by decide, _, (List.append_nil _).symm, rfl⟩
  · exact ⟨.marked ['%'] 2, by decide, _, (List.append_nil _).symm, rfl⟩
  · exact ⟨.marked ['0', 'x'] 16, by decide, _, (List.append_nil _).symm, rfl⟩
  · exact ⟨.marked ['0', 'X'] 16, by decide, _, (List.append_nil _).symm, rfl⟩
  · exact ⟨.marked ['0', 'b'] 2, by decide, _, (List.append_nil _).symm, rfl⟩
  · exact ⟨.marked ['0', 'B'] 2, by decide, _, (List.append_nil _).symm, rfl⟩
  · split
    · rename_i base hsuffix
      obtain ⟨c, hc, hsuffix⟩ := Option.bind_eq_some_iff.mp hsuffix
      have hform := ((suffixBase?_eq_some_iff _ _ _).mp hsuffix).1
      refine ⟨.lettered c base, by simp [argumentForms, hform], cs.dropLast, ?_, rfl⟩
      exact (List.dropLast_append_getLast? c hc).symm
    · exact ⟨.plain, by decide, cs, (List.append_nil _).symm, rfl⟩

/-! ## What is accepted -/

/-- A text without white space at its ends and without underscores. -/
def stripped (text : String) : List Char := dropUnderscores (trim text.toList)

/-- A documented form of a number: digits of the base of the form, and at most a minus sign
before everything. -/
def Documented (text : String) (v : Int64) : Prop :=
  ∃ f ∈ argumentForms, ∃ (front : Sign) (digits : List Char) (n : Nat), front ≠ .plus ∧
    stripped text = front.chars ++ (f.before ++ digits ++ f.behind) ∧
    Numeral f.base digits n ∧ v.toInt = front.apply n

/-- A form of a number with a sign of its own right before the digits. -/
def Signed (text : String) (v : Int64) : Prop :=
  ∃ f ∈ argumentForms, ∃ (front own : Sign) (digits : List Char) (n : Nat) (u : Int64),
    front ≠ .plus ∧
    stripped text = front.chars ++ (f.before ++ (own.chars ++ digits) ++ f.behind) ∧
    Numeral f.base digits n ∧ u.toInt = own.apply n ∧ v = if front = .minus then -u else u

/-- A sign other than a minus sign before everything. -/
def FurtherSign (text : String) : Prop := '+' ∈ stripped text ∨ '-' ∈ (stripped text).tail

instance (text : String) : Decidable (FurtherSign text) := inferInstanceAs (Decidable (_ ∨ _))

theorem signed_of_argument? {text : String} {v : Int64} (h : argument? text = some v) :
    Signed text v := by
  have read : ∀ {cs : List Char} {u : Int64}, magnitude? cs = some u →
      ∃ f ∈ argumentForms, ∃ (own : Sign) (digits : List Char) (n : Nat),
        cs = f.before ++ (own.chars ++ digits) ++ f.behind ∧ Numeral f.base digits n ∧
        u.toInt = own.apply n := by
    intro cs u hu
    obtain ⟨f, hf, body, rfl, hread⟩ := magnitude?_form cs
    obtain ⟨own, digits, n, rfl, hn, hvalue⟩ := (signed?_eq_some_iff _ _ _).mp (hread ▸ hu)
    exact ⟨f, hf, own, digits, n, rfl, hn, hvalue⟩
  unfold argument? at h
  split at h
  · rename_i cs htrim
    obtain ⟨u, hu, rfl⟩ := Option.map_eq_some_iff.mp h
    obtain ⟨f, hf, own, digits, n, hcs, hn, hvalue⟩ := read hu
    refine ⟨f, hf, .minus, own, digits, n, u, by simp, ?_, hn, hvalue, by simp⟩
    rw [stripped, htrim, ← hcs]
    rfl
  · obtain ⟨f, hf, own, digits, n, hcs, hn, hvalue⟩ := read h
    exact ⟨f, hf, .none, own, digits, n, v, by simp, hcs, hn, hvalue, by simp⟩

/-- Neither digits nor the marks and letters of the forms are signs. -/
theorem sign_notMem {f : Form} (hf : f ∈ argumentForms) {digits : List Char} {n : Nat}
    (hn : Numeral f.base digits n) :
    '+' ∉ f.before ++ digits ++ f.behind ∧ '-' ∉ f.before ++ digits ++ f.behind := by
  have table : ∀ f ∈ argumentForms, ∀ c ∈ f.before ++ f.behind, c ≠ '+' ∧ c ≠ '-' :=
    forall_chars_of_all (by decide)
  have hall : ∀ c ∈ f.before ++ digits ++ f.behind, c ≠ '+' ∧ c ≠ '-' := by
    intro c hc
    rcases List.mem_append.mp hc with hc | hc
    · rcases List.mem_append.mp hc with hc | hc
      · exact table f hf c (List.mem_append_left _ hc)
      · obtain ⟨d, hd⟩ := hn.isDigit_of_mem hc
        exact ne_sign_of_isDigit hd
    · exact table f hf c (List.mem_append_right _ hc)
  exact ⟨fun h => (hall _ h).1 rfl, fun h => (hall _ h).2 rfl⟩

/-- In a documented form a minus sign in front is the only sign. -/
theorem Documented.not_furtherSign {text : String} {v : Int64} (h : Documented text v) :
    ¬FurtherSign text := by
  obtain ⟨f, hf, front, digits, n, hfront, hstripped, hn, -⟩ := h
  obtain ⟨hplus, hminus⟩ := sign_notMem hf hn
  rw [FurtherSign, hstripped]
  cases front with
  | plus => exact absurd rfl hfront
  | none =>
    rintro (h | h)
    · exact hplus h
    · exact hminus (List.mem_of_mem_tail h)
  | minus =>
    rintro (h | h)
    · exact hplus ((List.mem_cons.mp h).resolve_left (by decide))
    · exact hminus h

/-- Every word but the least can be negated. -/
theorem toInt_neg {u : Int64} (hu : -2 ^ 63 < u.toInt) : (-u).toInt = -u.toInt := by
  have hlt := u.toInt_lt
  rw [Int64.toInt_neg, Int.bmod_eq_of_le (by omega) (by omega)]

/-- **What is accepted is documented if and only if there is no further sign in it.** -/
theorem documented_iff_not_furtherSign {text : String} {v : Int64}
    (h : argument? text = some v) : Documented text v ↔ ¬FurtherSign text := by
  refine ⟨Documented.not_furtherSign, fun hsign => ?_⟩
  obtain ⟨f, hf, front, own, digits, n, u, hfront, hstripped, hn, hu, rfl⟩ :=
    signed_of_argument? h
  rw [FurtherSign, hstripped, not_or] at hsign
  cases own with
  | none =>
    refine ⟨f, hf, front, digits, n, hfront, hstripped, hn, ?_⟩
    cases front with
    | plus => exact absurd rfl hfront
    | none => exact hu
    | minus =>
      have hvalue : u.toInt = n := hu
      rw [if_pos rfl, toInt_neg (by omega), hvalue]
      rfl
  | plus => exact absurd (by simp [Sign.chars]) hsign.1
  | minus =>
    cases front with
    | plus => exact absurd rfl hfront
    | minus => exact absurd (by simp [Sign.chars]) hsign.2
    | none =>
      -- a sign right before the digits is in front of everything only without a mark
      cases hb : f.before with
      | nil =>
        refine ⟨f, hf, .minus, digits, n, by simp, ?_, hn, hu⟩
        rw [hstripped, hb]
        rfl
      | cons c mark => exact absurd (by simp [Sign.chars, hb]) hsign.2

end Number

/-! ## Definitions -/

/-- What stands before the first equals sign of a definition. -/
def definedName (definition : String) : String :=
  String.ofList (definition.toList.takeWhile (· != '='))

theorem equals_notMem_definedName (definition : String) :
    '=' ∉ (definedName definition).toList := by
  intro h
  rw [definedName, String.toList_ofList] at h
  exact absurd (List.mem_takeWhile_imp h) (by decide)

/-- A definition is its name alone, or its name, an equals sign and what stands behind it. -/
theorem splitValue_cases (definition : String) :
    (definition = definedName definition ∧
      ArgumentReader.splitValue definition.toList = (definedName definition, none)) ∨
    ∃ text, definition = definedName definition ++ "=" ++ text ∧
      ArgumentReader.splitValue definition.toList = (definedName definition, some text) := by
  have hsplit := List.takeWhile_append_dropWhile (p := (· != '=')) (l := definition.toList)
  unfold ArgumentReader.splitValue
  cases hd : definition.toList.dropWhile (· != '=') with
  | nil =>
    rw [hd, List.append_nil] at hsplit
    refine Or.inl ⟨?_, rfl⟩
    rw [definedName, hsplit, String.ofList_toList]
  | cons c text =>
    obtain rfl : c = '=' := by
      have := List.head?_dropWhile_not (· != '=') definition.toList
      rw [hd] at this
      simpa using this
    rw [hd] at hsplit
    refine Or.inr ⟨String.ofList text, ?_, rfl⟩
    rw [← String.toList_inj, definedName]
    simp only [String.toList_append, String.toList_ofList, List.append_assoc]
    exact hsplit.symm

/-- The value of a definition is a number of the command line, or 1. -/
theorem parseDefinition_cases {definition name : String} {v : Int64}
    (h : parseDefinition definition = .ok (name, v)) :
    (name = definition ∧ '=' ∉ definition.toList ∧ v = 1) ∨
      ∃ value, definition = name ++ "=" ++ value ∧ Number.argument? value = some v := by
  unfold parseDefinition at h
  rcases splitValue_cases definition with ⟨hname, hsplit⟩ | ⟨value, htext, hsplit⟩
  · rw [hsplit] at h
    dsimp only [Option.elim] at h
    split at h
    · cases h
      exact Or.inl ⟨hname.symm, hname ▸ equals_notMem_definedName definition, rfl⟩
    · cases h
  · rw [hsplit] at h
    dsimp only [Option.elim] at h
    split at h
    · cases h
    · rename_i w hw
      split at h
      · cases h
        exact Or.inr ⟨value, htext, hw⟩
      · cases h

namespace Number

/-- **What the command line accepts as a number.** It is a form of a number, white space around
it and underscores anywhere in it, and it is a documented one unless there is a sign in it
besides a minus sign before everything. Read as a definition, a text has such a value, or 1. -/
theorem arguments_read (text : String) :
    (∀ v : Int64, argument? text = some v →
      Signed text v ∧ (Documented text v ↔ ¬FurtherSign text)) ∧
    ∀ (name : String) (v : Int64), parseDefinition text = .ok (name, v) →
      (name = text ∧ '=' ∉ text.toList ∧ v = 1) ∨
        ∃ value, text = name ++ "=" ++ value ∧ Signed value v ∧
          (Documented value v ↔ ¬FurtherSign value) := by
  constructor
  · intro v h
    exact ⟨signed_of_argument? h, documented_iff_not_furtherSign h⟩
  · intro name v h
    rcases parseDefinition_cases h with hdefault | ⟨value, htext, hvalue⟩
    · exact Or.inl hdefault
    · exact Or.inr ⟨value, htext, signed_of_argument? hvalue,
        documented_iff_not_furtherSign hvalue⟩

theorem arguments_read_binary :
    argument? " -1_0b " = some (-2) ∧ Documented " -1_0b " (-2) ∧
      parseDefinition "N=$2A" = .ok ("N", 42) ∧
      ∃ value, "N=$2A" = "N" ++ "=" ++ value ∧ Documented value 42 := by
  have hread : argument? " -1_0b " = some (-2) := by decide +kernel
  have hdefinition : parseDefinition "N=$2A" = .ok ("N", 42) := by rfl
  refine ⟨hread, ((arguments_read _).1 _ hread).2.mpr (by decide +kernel), hdefinition, ?_⟩
  rcases (arguments_read _).2 _ _ hdefinition with ⟨-, -, h⟩ | ⟨value, hvalue, -, hiff⟩
  · exact absurd h (by decide)
  · obtain rfl : "$2A" = value := (String.append_right_inj ("N" ++ "=")).mp hvalue
    exact ⟨_, hvalue, hiff.mpr (by decide +kernel)⟩

/-- A minus sign of the digits' own behind one before everything. -/
theorem arguments_read_twice :
    argument? "--5" = some 5 ∧ ¬Documented "--5" 5 ∧ parseDefinition "N=--5" = .ok ("N", 5) := by
  refine ⟨by decide +kernel, fun h => h.not_furtherSign (by decide +kernel), by rfl⟩

end Number

end AsmExpand
