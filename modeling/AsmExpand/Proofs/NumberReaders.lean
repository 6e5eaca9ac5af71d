import AsmExpand.Proofs.NumberArguments
import AsmExpand.Proofs.NumberScanning

/-!
# A number read twice

The command line reads a number that a source has to the same value, or not at all
(`argument?_of_scanned`). It does not know the letter `d`, and digits that begin like its
prefix `0b` it reads as binary digits behind the prefix, which they never are.
-/

namespace AsmExpand

namespace Number

/-- Characters that begin like a prefix of the command line, or end with a letter that only a
source knows. -/
def OnlyInSource (cs : List Char) : Prop :=
  (['0', 'b'] <+: cs ∨ ['0', 'B'] <+: cs) ∨
    cs.head? ≠ some '$' ∧ (cs.getLast? = some 'd' ∨ cs.getLast? = some 'D')

instance (cs : List Char) : Decidable (OnlyInSource cs) :=
  inferInstanceAs (Decidable ((_ ∨ _) ∨ _ ∧ (_ ∨ _)))

theorem not_onlyInSource {init : List Char} {last : Char}
    (hb : ¬(['0', 'b'] <+: init ++ [last] ∨ ['0', 'B'] <+: init ++ [last]))
    (hlast : last ≠ 'd' ∧ last ≠ 'D') : ¬OnlyInSource (init ++ [last]) := by
  rw [OnlyInSource, List.getLast?_concat, Option.some.injEq, Option.some.injEq]
  rintro (h | ⟨-, h | h⟩)
  · exact hb h
  · exact hlast.1 h
  · exact hlast.2 h

/-! ## The text without its underscores -/

/-- What is so for digits, for underscores and for the marks and letters of the forms, is so for
every character of a spelling. -/
theorem Spells.forall_mem {P : Char → Prop} {cs : List Char} {n : Nat} (h : Spells cs n)
    (digit : ∀ {base c d}, IsDigit base c d → P c) (underscore : P '_')
    (mark : ∀ f ∈ sourceForms, ∀ c ∈ f.before ++ f.behind, P c) : ∀ c ∈ cs, P c := by
  obtain ⟨f, hf, hn, -, ht⟩ := h
  intro c hc
  rcases List.mem_append.mp hc with hc | hc
  · exact mark f hf c (List.mem_append_left _ hc)
  by_cases hu : c = '_'
  · exact hu ▸ underscore
  rcases List.mem_cons.mp hc with rfl | hc
  · obtain ⟨d, hd⟩ := hn.isDigit_of_mem List.mem_cons_self
    exact digit hd
  have hmem := mem_dropUnderscores hc hu
  rw [ht] at hmem
  rcases List.mem_append.mp hmem with hmem | hmem
  · obtain ⟨d, hd⟩ := hn.isDigit_of_mem (List.mem_cons_of_mem _ hmem)
    exact digit hd
  · exact mark f hf c (List.mem_append_right _ hmem)

theorem isWhite_of_isDigit {base d : Nat} {c : Char} (h : IsDigit base c d) :
    isWhite c = false := by
  have table : ∀ b : Byte, b.continuesNumber = true → isWhite b.toChar = false :=
    Byte.forall_of_fin (by decide +kernel)
  obtain ⟨b, rfl, hword, -⟩ := h.exists_byte
  exact table b hword

theorem trim_eq_self {cs : List Char} (h : ∀ c ∈ cs, isWhite c = false) : trim cs = cs := by
  have hkeep : ∀ ds : List Char, (∀ c ∈ ds, isWhite c = false) → ds.dropWhile isWhite = ds := by
    intro ds hds
    cases ds with
    | nil => rfl
    | cons c ds => exact List.dropWhile_cons_of_neg (by simp [hds c List.mem_cons_self])
  rw [trim, hkeep cs h, hkeep _ fun c hc => h c (List.mem_reverse.mp hc), List.reverse_reverse]

/-- A spelling comes to the command line's reader as it is, underscores apart. -/
theorem Spells.argument?_eq {text : String} {n : Nat} (h : Spells text.toList n) :
    argument? text = magnitude? (dropUnderscores text.toList) := by
  have hchars : ∀ c ∈ text.toList, isWhite c = false ∧ c ≠ '-' := by
    refine h.forall_mem (fun hd => ?_) (by decide) (forall_chars_of_all (by decide))
    exact ⟨isWhite_of_isDigit hd, (ne_sign_of_isDigit hd).2⟩
  unfold argument?
  rw [trim_eq_self fun c hc => (hchars c hc).1]
  split
  · rename_i cs htext
    exact absurd rfl (hchars '-' (by rw [htext]; exact List.mem_cons_self)).2
  · rfl

theorem dropUnderscores_spelled {f : Form} (hf : f ∈ sourceForms) {first : Char}
    {digits tail : List Char} {n : Nat} (hn : Numeral f.base (first :: digits) n)
    (ht : dropUnderscores tail = digits ++ f.behind) :
    dropUnderscores (f.before ++ first :: tail) = f.before ++ (first :: digits ++ f.behind) := by
  have table : ∀ f ∈ sourceForms, dropUnderscores f.before = f.before := by decide
  obtain ⟨d, hd⟩ := hn.isDigit_of_mem List.mem_cons_self
  rw [dropUnderscores, List.filter_append]
  exact congrArg₂ _ (table f hf) ((dropUnderscores_cons hd tail).trans (congrArg _ ht))

/-! ## The readers compared -/

/-- A character that is neither a digit nor a sign ends the reading. -/
theorem signed?_eq_none_of_mem {base : Nat} {cs : List Char} {c : Char} (hc : c ∈ cs)
    (hdigit : ∀ d, ¬IsDigit base c d) (hsign : c ≠ '+' ∧ c ≠ '-') : signed? base cs = none := by
  refine Option.eq_none_iff_forall_ne_some.mpr fun v hv => ?_
  obtain ⟨own, digits, n, rfl, hn, -⟩ := (signed?_eq_some_iff _ _ _).mp hv
  rcases List.mem_append.mp hc with hc | hc
  · cases own with
    | none => cases hc
    | plus => exact hsign.1 (List.mem_singleton.mp hc)
    | minus => exact hsign.2 (List.mem_singleton.mp hc)
  · obtain ⟨d, hd⟩ := hn.isDigit_of_mem hc
    exact hdigit d hd

theorem Numeral.signed? {base n : Nat} {cs : List Char} {v : Int64} (hn : Numeral base cs n)
    (hv : v.toInt = n) : signed? base cs = some v :=
  (signed?_eq_some_iff base cs v).mpr ⟨.none, cs, n, rfl, hn, hv⟩

/-- Without a prefix a number is read by its final letter. -/
theorem magnitude?_of_unmarked {cs : List Char} (h : ∀ c ∈ ['$', '%', 'x', 'X'], c ∉ cs)
    (hb : ¬(['0', 'b'] <+: cs ∨ ['0', 'B'] <+: cs)) :
    magnitude? cs = match cs.getLast?.bind fun c => suffixBase? cs.dropLast c.toUpper with
      | some base => signed? base cs.dropLast
      | none => signed? 10 cs := by
  unfold magnitude?
  split
  · rfl
  · exact absurd List.mem_cons_self (h '$' (by decide))
  · exact absurd List.mem_cons_self (h '%' (by decide))
  · exact absurd (List.mem_cons_of_mem _ List.mem_cons_self) (h 'x' (by decide))
  · exact absurd (List.mem_cons_of_mem _ List.mem_cons_self) (h 'X' (by decide))
  · exact absurd (Or.inl ⟨_, rfl⟩) hb
  · exact absurd (Or.inr ⟨_, rfl⟩) hb
  · rfl

/-- Without a prefix of its own, a number of a source shows none of another reader's marks. -/
theorem mark_notMem_unmarked {f : Form} (hf : f ∈ sourceForms) {digits : List Char} {n : Nat}
    (hn : Numeral f.base digits n) : ∀ c ∈ ['$', '%', 'x', 'X'], c ∉ digits ++ f.behind := by
  have hbase : ∀ f ∈ sourceForms, f.base ≤ 16 := by decide
  have hletters : ∀ f ∈ sourceForms, ∀ c ∈ f.behind, c ∉ ['$', '%', 'x', 'X'] :=
    forall_chars_of_all (by decide)
  have hdigits : ∀ b : Byte, b.isHexDigit = true → b.toChar ∉ ['$', '%', 'x', 'X'] :=
    Byte.forall_of_fin (by decide +kernel)
  intro c hc hmem
  rcases List.mem_append.mp hmem with hmem | hmem
  · obtain ⟨d, hd⟩ := hn.isDigit_of_mem hmem
    obtain ⟨b, rfl, -, -, hhex, -⟩ := (hd.mono (hbase f hf)).exists_byte
    exact hdigits b (hhex rfl) hc
  · exact hletters f hf c hmem hc

/-- Digits of a base up to ten are not the letter that only a source knows. -/
theorem ne_d_of_isDigit {base d : Nat} {c : Char} (h : IsDigit base c d) (hbase : base ≤ 10) :
    c ≠ 'd' ∧ c ≠ 'D' := by
  have hsome := (digit?_eq_some_iff 10 c d).mpr (h.mono hbase)
  constructor
  · rintro rfl
    cases hsome
  · rintro rfl
    cases hsome

theorem magnitude?_of_marked {mark : List Char} {base : Nat} (hf : .marked mark base ∈ sourceForms)
    {digits : List Char} {n : Nat} {v : Int64} (hn : Numeral base digits n) (hv : v.toInt = n) :
    magnitude? (mark ++ digits) = some v ∧ ¬OnlyInSource (mark ++ digits) := by
  rcases mark_of_mem_sourceForms hf with ⟨rfl, rfl⟩ | ⟨rfl, rfl⟩
  · exact ⟨hn.signed? hv, by simp [OnlyInSource]⟩
  · refine ⟨hn.signed? hv, ?_⟩
    obtain ⟨init, last, d, rfl, hd⟩ := hn.exists_last
    rw [← List.append_assoc]
    exact not_onlyInSource (by simp) (ne_d_of_isDigit hd (by omega))

theorem magnitude?_of_plain {digits : List Char} {n : Nat} {v : Int64} (hn : Numeral 10 digits n)
    (hv : v.toInt = n) : magnitude? digits = some v ∧ ¬OnlyInSource digits := by
  -- the letter of the prefix is no decimal digit
  have hb : ¬(['0', 'b'] <+: digits ∨ ['0', 'B'] <+: digits) := by
    have hletter : ∀ c ∈ digits, digit? 10 c ≠ none := by
      intro c hc hnone
      obtain ⟨d, hd⟩ := hn.isDigit_of_mem hc
      cases hnone.symm.trans ((digit?_eq_some_iff 10 c d).mpr hd)
    rintro (h | h)
    · exact hletter 'b' (h.subset (by simp)) rfl
    · exact hletter 'B' (h.subset (by simp)) rfl
  have hmarks := mark_notMem_unmarked (f := .plain) (by decide) hn
  rw [Form.behind, List.append_nil] at hmarks
  obtain ⟨init, last, d, rfl, hd⟩ := hn.exists_last
  refine ⟨?_, not_onlyInSource hb (ne_d_of_isDigit hd (Nat.le_refl _))⟩
  rw [magnitude?_of_unmarked hmarks hb, List.getLast?_concat, Option.bind_some,
    suffixBase?_of_digit _ hd]
  exact hn.signed? hv

/-- Behind what looks like a prefix there are no binary digits: nothing is there, or the letter
of the form is. -/
theorem signed?_behind_prefix {letter : Char} {base : Nat}
    (hf : .lettered letter base ∈ sourceForms) {b : Char} {digits more : List Char}
    (h : b :: more = digits ++ [letter]) : signed? 2 more = none := by
  cases digits with
  | nil =>
    obtain rfl : more = [] := (List.cons.inj h).2
    rfl
  | cons c digits =>
    have hletter : letter ∈ (Form.lettered letter base).behind := List.mem_cons_self
    have hsign : ∀ f ∈ sourceForms, ∀ c ∈ f.behind, c ≠ '+' ∧ c ≠ '-' :=
      forall_chars_of_all (by decide)
    refine signed?_eq_none_of_mem (c := letter) ?_ (fun d hd => ?_) (hsign _ hf _ hletter)
    · rw [(List.cons.inj h).2]
      exact List.mem_append_right _ hletter
    · exact not_isDigit_of_mem_behind hf hletter d (hd.mono (by omega))

/-- The letter that only a source knows is read as a digit, which it is not. -/
theorem signed?_of_d {digits : List Char} {letter : Char} (h : letter = 'd' ∨ letter = 'D') :
    signed? 10 (digits ++ [letter]) = none := by
  refine signed?_eq_none_of_mem (c := letter) (List.mem_append_right _ List.mem_cons_self) ?_ ?_
  · intro d hd
    have hne := ne_d_of_isDigit hd (Nat.le_refl _)
    exact h.elim hne.1 hne.2
  · rcases h with rfl | rfl <;> decide

theorem magnitude?_of_lettered {letter : Char} {base : Nat}
    (hf : .lettered letter base ∈ sourceForms) {first : Char} {digits : List Char} {n : Nat}
    {v : Int64} (hn : Numeral base (first :: digits) n) (hv : v.toInt = n) :
    magnitude? (first :: digits ++ [letter])
      = if OnlyInSource (first :: digits ++ [letter]) then none else some v := by
  have hmarks : ∀ c ∈ ['$', '%', 'x', 'X'], c ∉ first :: digits ++ [letter] :=
    mark_notMem_unmarked hf hn
  by_cases hb : ['0', 'b'] <+: first :: digits ++ [letter] ∨
      ['0', 'B'] <+: first :: digits ++ [letter]
  · have honly : OnlyInSource (first :: digits ++ [letter]) := Or.inl hb
    rw [if_pos honly]
    rcases hb with ⟨more, h⟩ | ⟨more, h⟩
    · rw [← h]
      exact signed?_behind_prefix hf (List.cons.inj h).2
    · rw [← h]
      exact signed?_behind_prefix hf (List.cons.inj h).2
  rw [magnitude?_of_unmarked hmarks hb, List.getLast?_concat, Option.bind_some,
    List.dropLast_concat]
  by_cases hd : letter = 'd' ∨ letter = 'D'
  · have hnone : suffixBase? (first :: digits) letter.toUpper = none := by
      rcases hd with rfl | rfl <;> rfl
    have hhead : first ≠ '$' := fun e => hmarks '$' (by decide) (e ▸ List.mem_cons_self)
    have honly : OnlyInSource (first :: digits ++ [letter]) := by
      refine Or.inr ⟨by simpa using hhead, ?_⟩
      rw [List.getLast?_concat]
      simpa using hd
    rw [hnone, if_pos honly]
    exact signed?_of_d hd
  · have hform : .lettered letter base ∈ letteredForms := by
      simp only [sourceForms, List.mem_cons, reduceCtorEq, Form.lettered.injEq, false_or] at hf
      tauto
    have hsuffix : suffixBase? (first :: digits) letter.toUpper = some base :=
      (suffixBase?_eq_some_iff _ _ _).mpr
        ⟨hform, fun h2 x hx => by subst h2; exact hn.isDigit_of_mem hx⟩
    rw [hsuffix, if_neg (not_onlyInSource hb (not_or.mp hd))]
    exact hn.signed? hv

/-- **A number of a source on the command line.** -/
theorem argument?_of_spells {text : String} {n : Nat} {v : Int64} (h : Spells text.toList n)
    (hv : v.toInt = n) :
    argument? text = if OnlyInSource (dropUnderscores text.toList) then none else some v := by
  rw [h.argument?_eq]
  generalize text.toList = cs at h
  obtain ⟨f, hf, hn, -, ht⟩ := h
  rw [dropUnderscores_spelled hf hn ht]
  cases f with
  | plain =>
    obtain ⟨hread, hboth⟩ := magnitude?_of_plain hn hv
    rw [Form.before, Form.behind, List.append_nil, List.nil_append, if_neg hboth]
    exact hread
  | lettered letter base => exact magnitude?_of_lettered hf hn hv
  | marked mark base =>
    obtain ⟨hread, hboth⟩ := magnitude?_of_marked hf hn hv
    rw [Form.before, Form.behind, List.append_nil, if_neg hboth]
    exact hread

/-- **What a source reads as a number, the command line reads the same**, unless it does not
know the form. The text is one constant from its first byte to its last, and no character in
quotes. -/
theorem argument?_of_scanned {text : String} {v : Int64}
    (h : (Scan.ofSource text).items
      = [.ok ⟨.int, some (.int v), ⟨1, 1, 1 + (Utf8.bytes text).length⟩⟩])
    (hquote : text.toList.head? ≠ some '\'') :
    argument? text = if OnlyInSource (dropUnderscores text.toList) then none else some v := by
  obtain ⟨n, hn, hspells⟩ := spells_of_scan h hquote
  exact argument?_of_spells hspells hn

theorem argument?_of_scanned_hex :
    (Scan.ofSource "0F_fh").items = [.ok ⟨.int, some (.int 255), ⟨1, 1, 6⟩⟩] ∧
      argument? "0F_fh" = some 255 := by
  have hspells : Spells "0F_fh".toList 255 :=
    ⟨.lettered 'h' 16, by decide,
      @Form.Spells.intro _ '0' ['F', 'f'] ['F', '_', 'f', 'h'] _
        ((natural?_eq_some_iff _ _ _).mp rfl)
        (fun _ => ⟨0, (digit?_eq_some_iff _ _ _).mp rfl⟩) rfl⟩
  have hscan := hspells.items_eq (v := 255) rfl
  refine ⟨hscan, (argument?_of_scanned hscan (by decide)).trans (if_neg ?_)⟩
  decide

/-- Hexadecimal digits that begin with `0B`. -/
theorem argument?_of_scanned_prefix :
    (Scan.ofSource "0Bh").items = [.ok ⟨.int, some (.int 11), ⟨1, 1, 4⟩⟩] ∧
      "0Bh".toList.head? ≠ some '\'' ∧ argument? "0Bh" = none := by
  have hspells : Spells "0Bh".toList 11 :=
    ⟨.lettered 'h' 16, by decide,
      @Form.Spells.intro _ '0' ['B'] ['B', 'h'] _ ((natural?_eq_some_iff _ _ _).mp rfl)
        (fun _ => ⟨0, (digit?_eq_some_iff _ _ _).mp rfl⟩) rfl⟩
  exact ⟨hspells.items_eq (v := 11) rfl, by decide, by decide +kernel⟩

end Number

end AsmExpand
