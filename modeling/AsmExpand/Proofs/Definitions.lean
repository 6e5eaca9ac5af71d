import AsmExpand.Proofs.LineTokens
import AsmExpand.Proofs.NumberArguments
import AsmExpand.Proofs.NumberScanning
import AsmExpand.Proofs.Rendering

/-!
# Definitions on the command line

A definition names a symbol a source can use: what it takes for a name is what the scanner reads
as one identifier and nothing else (`isName_iff_scans`).

Definitions are taken one by one into a table that holds those before (`SymbolTable.Holds`), until
one of them offends: its value is no number, its name no name, or an earlier one has it. Which
definition is the first to offend, if any does, is a matter of the list alone
(`accepted_or_offence`), and so is what the table holds in the end (`definitions_name_symbols`).
-/

namespace AsmExpand

/-! ## Names -/

/-- A text that is one identifier to the scanner, with all of it as its name. -/
def ScansAsName (text : String) : Prop :=
  (Scan.ofSource text).items.map Item.reading? = [some (.ident, some (.text text))]

instance (text : String) : Decidable (ScansAsName text) := inferInstanceAs (Decidable (_ = _))

theorem isName_iff_readable (text : String) :
    isName text = true ↔ Readable .ident (some (.text text)) := by
  unfold isName
  constructor
  · intro h
    split at h
    · cases h
    · rename_i b tail hbytes
      rw [Bool.and_eq_true, List.all_eq_true] at h
      obtain ⟨hb, htail⟩ := h
      have hword : ∀ c ∈ b :: tail, c.continuesName = true :=
        List.forall_mem_cons.mpr ⟨Byte.continuesName_of_startsName hb, htail⟩
      have htext : text = String.ofList (Lexeme.chars (b :: tail)) := by
        rw [← Utf8.toList_of_bytes hbytes fun c hc => Byte.ascii_of_continuesName (hword c hc),
          String.ofList_toList]
      rw [htext]
      exact .ident hb htail
  · intro h
    cases h with
    | @ident b tail hb htail =>
      have hword : ∀ c ∈ b :: tail, c.continuesName = true :=
        List.forall_mem_cons.mpr ⟨Byte.continuesName_of_startsName hb, htail⟩
      rw [bytes_of_continuesName hword]
      exact Bool.and_eq_true_iff.mpr ⟨hb, List.all_eq_true.mpr htail⟩

/-- **The names of the command line are the identifiers of a source.** -/
theorem isName_iff_scans (text : String) : isName text = true ↔ ScansAsName text := by
  rw [isName_iff_readable, ScansAsName, Scan.ofSource_eq]
  constructor
  · intro h
    let t : Token := ⟨.ident, some (.text text), ⟨1, 1, 1⟩⟩
    have hrest : (Cursor.ofSource text).rest = rendered true [t] := by
      rw [rendered_cons, rendered_nil]
      simp [Cursor.ofSource, show t.source = text from rfl]
    have hreadable : AllReadable [t] := by simpa [AllReadable] using h
    exact (Cursor.reading_rendered_iff hrest hreadable).mpr (List.isChain_singleton t)
  · intro h
    obtain ⟨i, hi, hreading⟩ : ∃ i ∈ (Cursor.ofSource text).items,
        Item.reading? i = some (.ident, some (.text text)) :=
      List.mem_map.mp (by rw [h]; exact List.mem_singleton_self _)
    cases i with
    | error _ => cases hreading
    | ok t =>
      obtain ⟨hkind, hliteral⟩ := Prod.mk.inj (Option.some.inj hreading)
      rw [← hkind, ← hliteral]
      exact Cursor.readable_of_mem_items _ hi (by rw [hkind]; rfl)

namespace Definitions

/-! ## One definition -/

/-- The value that a definition gives its name: the number behind the first equals sign, or 1 if
there is none. -/
inductive Defines (definition : String) : Int64 → Prop where
  | alone : definition = definedName definition → Defines definition 1
  | valued {text : String} {v : Int64} : definition = definedName definition ++ "=" ++ text →
      Number.argument? text = some v → Defines definition v

/-- A definition that can be taken, unless its name is taken. -/
structure Proper (definition : String) : Prop where
  name : ScansAsName (definedName definition)
  value : ∃ v, Defines definition v

/-- A definition without an equals sign is no definition with one. -/
theorem ne_definedName {definition text : String}
    (h : definition = definedName definition ++ "=" ++ text) :
    definition ≠ definedName definition := by
  intro hname
  have hmem : '=' ∈ definition.toList := by
    rw [h]
    simp
  exact equals_notMem_definedName definition (hname ▸ hmem)

theorem defines_alone_iff {definition : String} {v : Int64}
    (h : definition = definedName definition) : Defines definition v ↔ v = 1 := by
  constructor
  · intro hv
    cases hv with
    | alone => rfl
    | valued htext => exact absurd h (ne_definedName htext)
  · rintro rfl
    exact .alone h

theorem defines_valued_iff {definition text : String} {v : Int64}
    (h : definition = definedName definition ++ "=" ++ text) :
    Defines definition v ↔ Number.argument? text = some v := by
  constructor
  · intro hv
    cases hv with
    | alone hname => exact absurd hname (ne_definedName h)
    | @valued other _ hother hv =>
      obtain rfl : text = other := (String.append_right_inj _).mp (h.symm.trans hother)
      exact hv
  · exact .valued h

theorem Defines.unique {definition : String} {v w : Int64} (hv : Defines definition v)
    (hw : Defines definition w) : v = w := by
  rcases splitValue_cases definition with ⟨h, -⟩ | ⟨text, h, -⟩
  · rw [defines_alone_iff h] at hv hw
    exact hv.trans hw.symm
  · rw [defines_valued_iff h] at hv hw
    exact Option.some.inj (hv.symm.trans hw)

/-- A definition is read as its name and the value it gives it. The value is looked at first. -/
theorem parseDefinition_eq (definition : String) :
    (∃ v, Defines definition v ∧ parseDefinition definition
      = if isName (definedName definition) then .ok (definedName definition, v)
        else .error (.invalidName definition)) ∨
    (∀ v, ¬Defines definition v) ∧
      parseDefinition definition = .error (.invalidValue definition) := by
  unfold parseDefinition
  rcases splitValue_cases definition with ⟨hname, hsplit⟩ | ⟨text, htext, hsplit⟩
  · rw [hsplit]
    exact Or.inl ⟨1, .alone hname, rfl⟩
  · rw [hsplit]
    dsimp only [Option.elim]
    simp only [defines_valued_iff htext]
    cases hv : Number.argument? text with
    | some v => exact Or.inl ⟨v, rfl, rfl⟩
    | none => exact Or.inr ⟨nofun, rfl⟩

theorem parseDefinition_of_defines {definition : String} {v : Int64} (h : Defines definition v) :
    parseDefinition definition = if isName (definedName definition)
      then .ok (definedName definition, v) else .error (.invalidName definition) := by
  rcases parseDefinition_eq definition with ⟨w, hw, hparse⟩ | ⟨hnone, -⟩
  · rw [hparse, h.unique hw]
  · exact absurd h (hnone v)

/-! ## Lists of definitions -/

/-- Definitions that can all be taken. -/
structure Accepted (definitions : List String) : Prop where
  proper : ∀ d ∈ definitions, Proper d
  distinct : (definitions.map definedName).Nodup

/-- What is wrong with a definition behind others. -/
inductive Offence (before : List String) (d : String) : ConfigError → Prop where
  | value : (∀ v, ¬Defines d v) → Offence before d (.invalidValue d)
  | name {v : Int64} : Defines d v → ¬ScansAsName (definedName d) →
      Offence before d (.invalidName d)
  | duplicate : Proper d → definedName d ∈ before.map definedName →
      Offence before d (.duplicate (definedName d))

theorem accepted_nil : Accepted [] := ⟨by simp, List.nodup_nil⟩

theorem Accepted.of_append {before after : List String} (h : Accepted (before ++ after)) :
    Accepted before := by
  refine ⟨fun d hd => h.proper d (List.mem_append_left _ hd), ?_⟩
  have hdistinct := h.distinct
  rw [List.map_append] at hdistinct
  exact (List.nodup_append.mp hdistinct).1

theorem accepted_append_singleton_iff {before : List String} {d : String} :
    Accepted (before ++ [d]) ↔
      Accepted before ∧ Proper d ∧ definedName d ∉ before.map definedName := by
  constructor
  · intro h
    have hdistinct := h.distinct
    rw [List.map_append, List.map_singleton, List.nodup_append] at hdistinct
    refine ⟨h.of_append, h.proper d (by simp), fun hmem => ?_⟩
    exact hdistinct.2.2 _ hmem _ (List.mem_singleton_self _) rfl
  · rintro ⟨h, hd, hnew⟩
    refine ⟨fun d' hd' => ?_, ?_⟩
    · rcases List.mem_append.mp hd' with hd' | hd'
      · exact h.proper d' hd'
      · exact List.mem_singleton.mp hd' ▸ hd
    · rw [List.map_append, List.map_singleton, List.nodup_append]
      refine ⟨h.distinct, List.pairwise_singleton _ _, fun name hname other hother => ?_⟩
      rw [List.mem_singleton.mp hother]
      exact ne_of_mem_of_not_mem hname hnew

theorem Accepted.perm {ds ds' : List String} (h : Accepted ds) (hp : ds'.Perm ds) :
    Accepted ds' :=
  ⟨fun d hd => h.proper d (hp.mem_iff.mp hd), (hp.map definedName).nodup_iff.mpr h.distinct⟩

/-- **Definitions can all be taken, or one of them is the first to offend.** -/
theorem accepted_or_offence (ds : List String) : Accepted ds ∨
    ∃ before d after e, ds = before ++ d :: after ∧ Accepted before ∧ Offence before d e := by
  induction ds using List.reverseRecOn with
  | nil => exact Or.inl accepted_nil
  | append_singleton before d ih =>
    rcases ih with h | ⟨before', d', after, e, rfl, h, ho⟩
    · by_cases hvalue : ∃ v, Defines d v
      · by_cases hname : ScansAsName (definedName d)
        · have hd : Proper d := ⟨hname, hvalue⟩
          by_cases hnew : definedName d ∈ before.map definedName
          · exact Or.inr ⟨before, d, [], _, rfl, h, .duplicate hd hnew⟩
          · exact Or.inl (accepted_append_singleton_iff.mpr ⟨h, hd, hnew⟩)
        · obtain ⟨v, hv⟩ := hvalue
          exact Or.inr ⟨before, d, [], _, rfl, h, .name hv hname⟩
      · exact Or.inr ⟨before, d, [], _, rfl, h, .value (not_exists.mp hvalue)⟩
    · exact Or.inr ⟨before', d', after ++ [d], e, by simp, h, ho⟩

end Definitions

open Definitions

/-! ## Tables -/

namespace SymbolTable

theorem find?_add? {t t' : SymbolTable} {name : String} {v : Int64}
    (h : t.add? name v = some t') (other : String) :
    t'.find? other = if other = name then some v else t.find? other := by
  unfold add? at h
  split at h
  · cases h
  · cases h
    rw [find?, find?, List.lookup_cons]
    by_cases he : other = name
    · simp [he]
    · rw [beq_eq_false_iff_ne.mpr he, if_neg he]

theorem size_add? {t t' : SymbolTable} {name : String} {v : Int64}
    (h : t.add? name v = some t') : t'.size = t.size + 1 := by
  unfold add? at h
  split at h
  · cases h
  · cases h
    rfl

/-- A table has what definitions define, and nothing else. -/
structure Holds (t : SymbolTable) (definitions : List String) : Prop where
  find?_iff : ∀ name v, t.find? name = some v ↔
    ∃ d ∈ definitions, definedName d = name ∧ Defines d v
  size_eq : t.size = definitions.length

theorem holds_empty : Holds {} [] := ⟨by simp [find?], rfl⟩

variable {t : SymbolTable} {before : List String}

/-- A name is free if and only if no definition has it. -/
theorem Holds.find?_eq_none_iff (h : t.Holds before) (hb : Accepted before) (name : String) :
    t.find? name = none ↔ name ∉ before.map definedName := by
  constructor
  · intro hfree hmem
    obtain ⟨d, hd, rfl⟩ := List.mem_map.mp hmem
    obtain ⟨v, hv⟩ := (hb.proper d hd).value
    rw [(h.find?_iff _ v).mpr ⟨d, hd, rfl, hv⟩] at hfree
    cases hfree
  · intro hmem
    cases hv : t.find? name with
    | none => rfl
    | some v =>
      obtain ⟨d, hd, hname, -⟩ := (h.find?_iff _ _).mp hv
      exact absurd (List.mem_map.mpr ⟨d, hd, hname⟩) hmem

/-- A proper definition of a free name is added. -/
theorem Holds.add? (h : t.Holds before) (hb : Accepted before) {d : String} {v : Int64}
    (hv : Defines d v) (hnew : definedName d ∉ before.map definedName) :
    ∃ t', t.add? (definedName d) v = some t' ∧ t'.Holds (before ++ [d]) := by
  have hfree := (h.find?_eq_none_iff hb _).mpr hnew
  obtain ⟨t', ht'⟩ : ∃ t', t.add? (definedName d) v = some t' :=
    ⟨_, by rw [SymbolTable.add?, hfree]⟩
  refine ⟨t', ht', fun name w => ?_, ?_⟩
  · rw [find?_add? ht']
    constructor
    · intro hfind
      split at hfind
      · rename_i hname
        cases hfind
        exact ⟨d, by simp, hname.symm, hv⟩
      · obtain ⟨d', hd', hdefines⟩ := (h.find?_iff _ _).mp hfind
        exact ⟨d', List.mem_append_left _ hd', hdefines⟩
    · rintro ⟨d', hd', rfl, hw⟩
      rcases List.mem_append.mp hd' with hd' | hd'
      · have hne : definedName d' ≠ definedName d :=
          fun e => hnew (e ▸ List.mem_map_of_mem hd')
        rw [if_neg hne]
        exact (h.find?_iff _ _).mpr ⟨d', hd', rfl, hw⟩
      · obtain rfl := List.mem_singleton.mp hd'
        rw [if_pos rfl, hv.unique hw]
  · rw [size_add? ht', h.size_eq, List.length_append, List.length_singleton]

end SymbolTable

/-! ## Taking definitions -/

variable {t : SymbolTable} {before : List String}

/-- A definition that offends ends the taking. -/
theorem defineAll_of_offence (h : t.Holds before) (hb : Accepted before) {d : String}
    {e : ConfigError} (ho : Offence before d e) (after : List String) :
    defineAll t (d :: after) = .error e := by
  rw [defineAll]
  cases ho with
  | value hnone =>
    rcases parseDefinition_eq d with ⟨v, hv, -⟩ | ⟨-, hparse⟩
    · exact absurd hv (hnone v)
    · rw [hparse]
  | name hv hname =>
    have hisName : isName (definedName d) ≠ true := fun h => hname ((isName_iff_scans _).mp h)
    rw [parseDefinition_of_defines hv, if_neg hisName]
  | duplicate hd hmem =>
    obtain ⟨v, hv⟩ := hd.value
    rw [parseDefinition_of_defines hv, if_pos ((isName_iff_scans _).mpr hd.name)]
    cases hfind : t.find? (definedName d) with
    | none => exact absurd hmem ((h.find?_eq_none_iff hb _).mp hfind)
    | some w => simp only [SymbolTable.add?, hfind]

/-- A definition that does not is taken into the table. -/
theorem defineAll_of_accepted (h : t.Holds before) {d : String} (hd : Accepted (before ++ [d])) :
    ∃ t' : SymbolTable, t'.Holds (before ++ [d]) ∧
      ∀ after, defineAll t (d :: after) = defineAll t' after := by
  obtain ⟨hb, hproper, hnew⟩ := accepted_append_singleton_iff.mp hd
  obtain ⟨v, hv⟩ := hproper.value
  obtain ⟨t', ht', hholds⟩ := h.add? hb hv hnew
  refine ⟨t', hholds, fun after => ?_⟩
  rw [defineAll, parseDefinition_of_defines hv, if_pos ((isName_iff_scans _).mpr hproper.name)]
  simp only [ht']

/-- **Definitions that can all be taken are**, and the table holds them. -/
theorem defineAll_append {ds : List String} (h : Accepted ds) :
    ∃ t : SymbolTable, t.Holds ds ∧ ∀ after, defineAll {} (ds ++ after) = defineAll t after := by
  induction ds using List.reverseRecOn with
  | nil => exact ⟨{}, SymbolTable.holds_empty, fun _ => rfl⟩
  | append_singleton ds d ih =>
    obtain ⟨t, hholds, hrest⟩ := ih h.of_append
    obtain ⟨t', hholds', hrest'⟩ := defineAll_of_accepted hholds h
    refine ⟨t', hholds', fun after => ?_⟩
    rw [List.append_assoc, List.singleton_append, hrest, hrest']

theorem defineAll_eq_ok {ds : List String} (h : Accepted ds) :
    ∃ t : SymbolTable, t.Holds ds ∧ defineAll {} ds = .ok t := by
  obtain ⟨t, hholds, hrest⟩ := defineAll_append h
  exact ⟨t, hholds, by simpa [defineAll] using hrest []⟩

/-- **The first definition to offend is the one reported.** -/
theorem defineAll_eq_error {before after : List String} {d : String} {e : ConfigError}
    (h : Accepted before) (ho : Offence before d e) :
    defineAll {} (before ++ d :: after) = .error e := by
  obtain ⟨t, hholds, hrest⟩ := defineAll_append h
  rw [hrest, defineAll_of_offence hholds h ho]

/-! ## Options -/

/-- Options that make sense, their definitions apart. -/
structure Options.Sensible (o : Options) : Prop where
  some_input : o.infiles ≠ []
  own_outfile : o.outfile ≠ none → o.infiles.length = 1
  some_length : o.maxStringLength ≠ 0
  limit_nonneg : 0 ≤ o.argumentLimit

namespace Options.Sensible

variable {o : Options}

theorem with_defines (h : o.Sensible) (defines : List String) :
    Options.Sensible { o with defines := defines } :=
  ⟨h.some_input, h.own_outfile, h.some_length, h.limit_nonneg⟩

/-- Whether sensible options make a configuration is a matter of their definitions. -/
theorem validate_eq (h : o.Sensible) :
    o.validate = (defineAll {} o.defines).map fun symbols =>
      ⟨o.infiles, o.outfile, ⟨⟨o.maxStringLength, o.argumentLimit⟩, symbols⟩, o.raw⟩ := by
  have hinput : ¬o.infiles.isEmpty := by simpa using h.some_input
  have hshared : ¬(o.outfile.isSome ∧ 1 < o.infiles.length) := by
    rintro ⟨hout, hlength⟩
    have := h.own_outfile (Option.isSome_iff_ne_none.mp hout)
    omega
  have hlimit : ¬o.argumentLimit < 0 := by simpa using h.limit_nonneg
  rw [validate, if_neg hinput, if_neg hshared, if_neg h.some_length, if_neg hlimit]
  cases defineAll {} o.defines with
  | error e => rfl
  | ok symbols => rfl

theorem validate_of_accepted (h : o.Sensible) (ha : Accepted o.defines) :
    ∃ c, o.validate = .ok c ∧ c.settings.symbols.Holds o.defines := by
  obtain ⟨t, hholds, ht⟩ := defineAll_eq_ok ha
  exact ⟨_, by rw [h.validate_eq, ht]; rfl, hholds⟩

theorem validate_of_offence (h : o.Sensible) {before after : List String} {d : String}
    {e : ConfigError} (hds : o.defines = before ++ d :: after) (hb : Accepted before)
    (ho : Offence before d e) : o.validate = .error e := by
  rw [h.validate_eq, hds, defineAll_eq_error hb ho]
  rfl

theorem accepted_of_validate (h : o.Sensible) {c : Config} (hc : o.validate = .ok c) :
    Accepted o.defines := by
  rcases accepted_or_offence o.defines with ha | ⟨before, d, after, e, hds, hb, ho⟩
  · exact ha
  · rw [h.validate_of_offence hds hb ho] at hc
    cases hc

theorem holds_of_validate (h : o.Sensible) {c : Config} (hc : o.validate = .ok c) :
    c.settings.symbols.Holds o.defines := by
  obtain ⟨c', hc', hholds⟩ := h.validate_of_accepted (h.accepted_of_validate hc)
  obtain rfl : c' = c := Except.ok.inj (hc'.symm.trans hc)
  exact hholds

theorem offence_of_validate (h : o.Sensible) {e : ConfigError} (he : o.validate = .error e) :
    ∃ before d after, o.defines = before ++ d :: after ∧ Accepted before ∧ Offence before d e := by
  rcases accepted_or_offence o.defines with ha | ⟨before, d, after, e', hds, hb, ho⟩
  · obtain ⟨c, hc, -⟩ := h.validate_of_accepted ha
    cases hc.symm.trans he
  · obtain rfl : e' = e := Except.error.inj ((h.validate_of_offence hds hb ho).symm.trans he)
    exact ⟨before, d, after, hds, hb, ho⟩

end Options.Sensible

/-- **Definitions are the symbols a source can name.** If the other options make sense, there is a
configuration if and only if each definition has an identifier for its name and a number for its
value and no two have the same name. Its table then has these names with these values and no
others, in whatever order they were given. Otherwise the error is what is wrong with the first
definition to offend. -/
theorem definitions_name_symbols (o : Options) (h : o.Sensible) :
    ((∃ c, o.validate = .ok c) ↔
      (∀ d ∈ o.defines, ScansAsName (definedName d) ∧ ∃ v, Defines d v) ∧
        (o.defines.map definedName).Nodup) ∧
    (∀ c, o.validate = .ok c →
      (∀ name v, c.settings.symbols.find? name = some v ↔
        ∃ d ∈ o.defines, definedName d = name ∧ Defines d v) ∧
      c.settings.symbols.size = o.defines.length ∧
      ∀ defines : List String, defines.Perm o.defines →
        ∃ c', { o with defines := defines }.validate = .ok c' ∧
          ∀ name, c'.settings.symbols.find? name = c.settings.symbols.find? name) ∧
    ∀ e, o.validate = .error e ↔ ∃ before d after,
      o.defines = before ++ d :: after ∧ Accepted before ∧ Offence before d e := by
  refine ⟨⟨?_, ?_⟩, fun c hc => ?_, fun e => ⟨h.offence_of_validate, ?_⟩⟩
  · rintro ⟨c, hc⟩
    have ha := h.accepted_of_validate hc
    exact ⟨fun d hd => ⟨(ha.proper d hd).name, (ha.proper d hd).value⟩, ha.distinct⟩
  · rintro ⟨hproper, hdistinct⟩
    obtain ⟨c, hc, -⟩ := h.validate_of_accepted
      ⟨fun d hd => ⟨(hproper d hd).1, (hproper d hd).2⟩, hdistinct⟩
    exact ⟨c, hc⟩
  · have hholds := h.holds_of_validate hc
    refine ⟨hholds.find?_iff, hholds.size_eq, fun defines hp => ?_⟩
    obtain ⟨c', hc', hholds'⟩ :=
      (h.with_defines defines).validate_of_accepted ((h.accepted_of_validate hc).perm hp)
    -- what a table holds says nothing of an order
    refine ⟨c', hc', fun name => Option.ext fun v => ?_⟩
    rw [hholds.find?_iff, hholds'.find?_iff]
    simp only [hp.mem_iff]
  · rintro ⟨before, d, after, hds, hb, ho⟩
    exact h.validate_of_offence hds hb ho

/-- Two definitions with their values, and a list whose second definition has no name. -/
theorem definitions_name_symbols_two :
    (∃ c, ({ infiles := ["a"], defines := ["N", "m_1=$2A"] } : Options).validate = .ok c ∧
      c.settings.symbols.find? "N" = some 1 ∧ c.settings.symbols.find? "m_1" = some 42) ∧
    ({ infiles := ["a"], defines := ["N", "x y=3", "N=2"] } : Options).validate
      = .error (.invalidName "x y=3") := by
  have sensible : ∀ defines, Options.Sensible { infiles := ["a"], defines := defines } := by
    intro defines
    have hlength : (255 : Nat) ≠ 0 := by decide
    have hlimit : (0 : Int64) ≤ 100 := by decide
    exact ⟨List.cons_ne_nil _ _, fun _ => rfl, hlength, hlimit⟩
  have hN : Defines "N" 1 := .alone (by decide)
  have hm : Defines "m_1=$2A" 42 := @Defines.valued _ "$2A" _ (by decide) (by decide +kernel)
  have hx : Defines "x y=3" 3 := @Defines.valued _ "3" _ (by decide) (by decide +kernel)
  have hproper : Proper "N" := ⟨by decide +kernel, 1, hN⟩
  constructor
  · obtain ⟨hsome, hfind, -⟩ :=
      definitions_name_symbols { infiles := ["a"], defines := ["N", "m_1=$2A"] } (sensible _)
    have hproper' : Proper "m_1=$2A" := ⟨by decide +kernel, 42, hm⟩
    have haccepted : Accepted ["N", "m_1=$2A"] :=
      ⟨List.forall_mem_cons.mpr ⟨hproper, List.forall_mem_singleton.mpr hproper'⟩, by decide⟩
    obtain ⟨c, hc⟩ := hsome.mpr
      ⟨fun d hd => ⟨(haccepted.proper d hd).name, (haccepted.proper d hd).value⟩,
        haccepted.distinct⟩
    have hvalues := (hfind c hc).1
    exact ⟨c, hc, (hvalues _ _).mpr ⟨_, by simp, by decide, hN⟩,
      (hvalues _ _).mpr ⟨_, by simp, by decide, hm⟩⟩
  · obtain ⟨-, -, herror⟩ :=
      definitions_name_symbols { infiles := ["a"], defines := ["N", "x y=3", "N=2"] } (sensible _)
    have haccepted : Accepted ["N"] :=
      ⟨List.forall_mem_singleton.mpr hproper, by decide⟩
    exact (herror _).mpr
      ⟨["N"], "x y=3", ["N=2"], rfl, haccepted, .name hx (by decide +kernel)⟩

end AsmExpand
