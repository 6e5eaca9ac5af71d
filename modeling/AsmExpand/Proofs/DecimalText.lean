import AsmExpand.Proofs.Fallbacks
import AsmExpand.Proofs.NumberReaders

/-!
# Decimal text read back

`.STRING` writes the value of its argument in decimal, and the text is read back in two places:
as a number on the command line, and as an expression in a source. Both read the sign and then
a number without a sign, so both take the least word of all, whose magnitude is no word, for
out of range. Every other value comes back (`string_reads_back`).
-/

namespace AsmExpand

open Grammar Number

/-! ## The text of a word -/

namespace Decimal

theorem numeral_digits (n : Nat) : Numeral 10 (digits n) n :=
  (natural?_eq_some_iff _ _ _).mp (natural?_digits n)

/-- A number below a power of ten has no more digits than the power has zeros. -/
theorem length_digits_le {k : Nat} (hk : 0 < k) {n : Nat} (h : n < 10 ^ k) :
    (digits n).length ≤ k := by
  induction k generalizing n with
  | zero => exact absurd hk (Nat.lt_irrefl 0)
  | succ k ih =>
    rw [digits]
    split
    · exact hk
    · rename_i hn
      have hk : 0 < k := by
        refine Nat.pos_of_ne_zero fun e => ?_
        rw [e] at h
        omega
      have hdiv : n / 10 < 10 ^ k := by
        rw [Nat.pow_succ] at h
        omega
      have := ih hk hdiv
      rw [List.length_append, List.length_singleton]
      omega

/-- The text of a word is the digits of its magnitude, a minus sign before them or not. -/
theorem ofInt64_cases (v : Int64) :
    (∃ n : Nat, v.toInt = n ∧ ofInt64 v = String.ofList (digits n)) ∨
      ∃ n : Nat, v.toInt = -n ∧ 0 < n ∧ ofInt64 v = String.ofList ('-' :: digits n) := by
  rw [ofInt64]
  cases hv : v.toInt with
  | ofNat n => exact Or.inl ⟨n, rfl, rfl⟩
  | negSucc n =>
    refine Or.inr ⟨n + 1, rfl, Nat.succ_pos n, ?_⟩
    rw [ofInt, ofNat, String.ofList_cons]
    rfl

theorem utf8ByteSize_ofList {cs : List Char} (h : ∀ c ∈ cs, c.utf8Size = 1) :
    (String.ofList cs).utf8ByteSize = cs.length := by
  induction cs with
  | nil => rfl
  | cons c cs ih =>
    rw [String.ofList_cons, String.utf8ByteSize_append, String.utf8ByteSize_singleton,
      h c List.mem_cons_self, ih fun x hx => h x (List.mem_cons_of_mem _ hx), List.length_cons,
      Nat.add_comm]

theorem utf8Size_of_mem_digits {n : Nat} {c : Char} (hc : c ∈ digits n) : c.utf8Size = 1 := by
  have table : ∀ b : Byte, b.isDigit = true → b.toChar.utf8Size = 1 :=
    Byte.forall_of_fin (by decide +kernel)
  obtain ⟨d, hd⟩ := (numeral_digits n).isDigit_of_mem hc
  obtain ⟨b, rfl, -, -, -, hb, -⟩ := hd.exists_byte
  exact table b (hb rfl)

/-- No word takes more than twenty bytes. -/
theorem utf8ByteSize_ofInt64_le (v : Int64) : (ofInt64 v).utf8ByteSize ≤ 20 := by
  have hle := v.le_toInt
  have hlt := v.toInt_lt
  have hpow : (2 : Nat) ^ 63 < 10 ^ 19 := by decide
  rcases ofInt64_cases v with ⟨n, hn, htext⟩ | ⟨n, hn, -, htext⟩
  · have := length_digits_le (k := 19) (by decide) (n := n) (by omega)
    rw [htext, utf8ByteSize_ofList fun c hc => utf8Size_of_mem_digits hc]
    omega
  · have := length_digits_le (k := 19) (by decide) (n := n) (by omega)
    rw [htext, utf8ByteSize_ofList, List.length_cons]
    · omega
    · exact List.forall_mem_cons.mpr ⟨by decide, fun c hc => utf8Size_of_mem_digits hc⟩

end Decimal

/-! ## On the command line -/

namespace Number

theorem dropUnderscores_digits (n : Nat) :
    dropUnderscores (Decimal.digits n) = Decimal.digits n := by
  refine List.filter_eq_self.mpr fun c hc => ?_
  obtain ⟨d, hd⟩ := (Decimal.numeral_digits n).isDigit_of_mem hc
  simpa using ne_underscore_of_isDigit hd

theorem spells_digits (n : Nat) : Spells (Decimal.digits n) n := by
  obtain ⟨b, tail, hds, -⟩ := Decimal.exists_digits n
  have hn := Decimal.numeral_digits n
  have hdrop := dropUnderscores_digits n
  rw [hds, Lexeme.chars, List.map_cons] at hn hdrop ⊢
  obtain ⟨d, hd⟩ := hn.isDigit_of_mem List.mem_cons_self
  rw [dropUnderscores_cons hd] at hdrop
  refine ⟨.plain, by decide, .intro hn (fun _ => ⟨d, hd⟩) ?_⟩
  rw [(List.cons.inj hdrop).2]
  exact (List.append_nil _).symm

theorem magnitude?_digits {n : Nat} {u : Int64} (hu : u.toInt = n) :
    magnitude? (Decimal.digits n) = some u :=
  (magnitude?_of_plain (Decimal.numeral_digits n) hu).1

theorem argument?_digits {n : Nat} {u : Int64} (hu : u.toInt = n) :
    argument? (String.ofList (Decimal.digits n)) = some u := by
  have hspells : Spells (String.ofList (Decimal.digits n)).toList n := by
    rw [String.toList_ofList]
    exact spells_digits n
  rw [hspells.argument?_eq, String.toList_ofList, dropUnderscores_digits]
  exact magnitude?_digits hu

/-- A minus sign before digits is taken off, and the number negated. -/
theorem argument?_minus_digits (n : Nat) :
    argument? (String.ofList ('-' :: Decimal.digits n))
      = (magnitude? (Decimal.digits n)).map fun v => -v := by
  have hblank : ∀ c ∈ '-' :: Decimal.digits n, isWhite c = false := by
    refine List.forall_mem_cons.mpr ⟨by decide, fun c hc => ?_⟩
    obtain ⟨d, hd⟩ := (Decimal.numeral_digits n).isDigit_of_mem hc
    exact isWhite_of_isDigit hd
  rw [argument?, String.toList_ofList, trim_eq_self hblank]
  change (magnitude? (dropUnderscores (Decimal.digits n))).map _ = _
  rw [dropUnderscores_digits]

theorem minValue_lt_toInt {v : Int64} (hv : v ≠ Int64.minValue) : -2 ^ 63 < v.toInt := by
  have hle := v.le_toInt
  have hne : v.toInt ≠ Int64.minValue.toInt := fun e => hv (Int64.toInt_inj.mp e)
  rw [Int64.toInt_minValue] at hne
  omega

/-- **Decimal text is read back on the command line**, but for the least word. -/
theorem argument?_ofInt64 {v : Int64} (hv : v ≠ Int64.minValue) :
    argument? (Decimal.ofInt64 v) = some v := by
  rcases Decimal.ofInt64_cases v with ⟨n, hn, htext⟩ | ⟨n, hn, -, htext⟩
  · rw [htext]
    exact argument?_digits hn
  · have hneg : (-v).toInt = n := by
      rw [toInt_neg (minValue_lt_toInt hv), hn]
      omega
    rw [htext, argument?_minus_digits, magnitude?_digits hneg, Option.map_some, Int64.neg_neg]

end Number

/-! ## In a source -/

/-- A minus sign before digits is an operator before a number. -/
theorem exists_items_minus_digits {n : Nat} {u : Int64} (hu : u.toInt = n) :
    ∃ p q : Span, (Scan.ofSource (String.ofList ('-' :: Decimal.digits n))).items
      = [.ok ⟨.operator .minus, none, p⟩, .ok ⟨.int, some (.int u), q⟩] := by
  have htext : Decimal.ofInt64 u = String.ofList (Decimal.digits n) := by
    rw [Decimal.ofInt64, hu]
    rfl
  let c := Cursor.ofSource (String.ofList ('-' :: Decimal.digits n))
  have hrest : c.rest = .ofChar '-' :: Utf8.bytes (Decimal.ofInt64 u) := by
    change Utf8.bytes _ = _
    rw [htext, Utf8.bytes_ofList, Utf8.bytes_ofList, List.flatMap_cons]
    rfl
  have hgap : c.skipGap = c := by
    refine Cursor.skipGap_of_gap ?_
    rw [hrest]
    exact (Cursor.gap_of_startsAt (k := .operator .minus) (by decide) _).1
  have hitem : c.skipGap.item (.ofChar '-') (Utf8.bytes (Decimal.ofInt64 u))
      = (.ok ⟨.operator .minus, none, c.span 1⟩, c.skip 1) := by
    rw [hgap, Cursor.item_of_not_isNewline (by decide)]
    rfl
  -- the digits are next, and nothing is behind them
  have hdigits : (c.skip 1).rest = Utf8.bytes (Decimal.ofInt64 u) := by
    rw [Cursor.skip_rest, hrest]
    rfl
  have hnumber := (Cursor.next_of_source (c := c.skip 1) (t := ⟨.int, some (.int u), {}⟩)
    (.int (by omega)) (hdigits.trans (List.append_nil _).symm) rfl).2
  have hnone : ((c.skip 1).skip (Utf8.bytes (Decimal.ofInt64 u)).length).skipGap.rest = [] := by
    rw [Cursor.skipGap, Cursor.skip_rest, Cursor.skip_rest, hdigits, List.drop_length,
      List.drop_nil]
  refine ⟨c.span 1, (c.skip 1).span (Utf8.bytes (Decimal.ofInt64 u)).length, ?_⟩
  rw [Scan.ofSource_eq]
  change c.items = _
  rw [Cursor.items_of_cons (by rw [hgap, hrest]), hitem, hnumber]
  change _ :: _ :: Cursor.items ((c.skip 1).skip (Utf8.bytes (Decimal.ofInt64 u)).length) = _
  rw [Cursor.items_of_nil hnone]
  rfl

namespace Stream

/-- **An expression that is all of a source has its value**, without a report, and the end of
the input is next. -/
theorem constant_ofSource (settings : Settings) {source : String} {ts : List Token} {e : Expr}
    {v : Int64} (he : Derives .whole ts e) (hv : e.eval settings.symbols = .ok v)
    (hscan : (Scan.ofSource source).items = ts.map .ok) (htext : ∀ t ∈ ts, t.kind ≠ .text) :
    let r := (Advance.full settings).constant settings.symbols
      ((ofSource source).advance settings)
    r.1 = v ∧ r.2.log = #[] ∧ r.2.kind = .eof := by
  have hupcoming : (ofSource source).feed.upcoming = ts.map .ok ++ [] := by
    rw [List.append_nil, ← hscan]
    rfl
  obtain ⟨f, hts, hrest, -⟩ := Feed.Delivers.of_upcoming settings.limits.maxStringLength hupcoming
    fun t ht => Token.isTooLong_of_kind_ne (htext t ht) _
  obtain ⟨g, heof, -⟩ := Feed.Delivers.atEof settings.limits.maxStringLength hrest
  have hplain : ∀ x ∈ ts ++ [.atEof f.scan.endSpan],
      (ofSource source).isRaw = true ∨ x.kind.function? = none := by
    intro x hx
    rcases List.mem_append.mp hx with hx | hx
    · exact Or.inr (he.plain_of_mem x hx).1
    · rw [List.mem_singleton.mp hx]
      exact Or.inr rfl
  obtain ⟨s, hshows, hcurrent, hlog, -⟩ := shows_of_delivers settings (hts.append heof) hplain
  have hkind : s.kind = .eof := by
    rw [Stream.kind, hcurrent]
    rfl
  have hread := (((Advance.full settings).expression_iff ((ofSource source).advance settings) s
    e).mpr ⟨ts, (Advance.Shows.cons_iff.mp hshows).2, he, by rw [hkind]; rfl⟩).1
  intro r
  have hr : r = (v, s) := by
    change (Advance.full settings).constant _ _ = _
    rw [Advance.constant_eq, hread]
    dsimp only
    rw [hv]
  rw [hr]
  exact ⟨rfl, hlog, hkind⟩

/-- An operand is an expression. -/
theorem derives_of_operand {ts : List Token} {e : Expr} (h : Derives .operand ts e) :
    Derives .whole ts e :=
  .plain (.mono (.tightest (.bare h)) (Nat.zero_le _))

/-- **Decimal text is read back in a source**, but for the least word. -/
theorem constant_ofInt64 (settings : Settings) {v : Int64} (hv : v ≠ Int64.minValue) :
    let r := (Advance.full settings).constant settings.symbols
      ((ofSource (Decimal.ofInt64 v)).advance settings)
    r.1 = v ∧ r.2.log = #[] ∧ r.2.kind = .eof := by
  have number : ∀ (u : Int64) (p : Span),
      Derives .operand [⟨.int, some (.int u), p⟩] (.number u p) :=
    fun u p => .unsigned (.number rfl)
  rcases Decimal.ofInt64_cases v with ⟨n, hn, htext⟩ | ⟨n, hn, -, htext⟩
  · have hspells : Number.Spells (Decimal.ofInt64 v).toList n := by
      rw [htext, String.toList_ofList]
      exact Number.spells_digits n
    exact constant_ofSource settings (derives_of_operand (number v _)) rfl (hspells.items_eq hn)
      (by simp)
  · have hneg : (-v).toInt = n := by
      rw [Number.toInt_neg (Number.minValue_lt_toInt hv), hn]
      omega
    obtain ⟨p, q, hitems⟩ := exists_items_minus_digits hneg
    have hderives : Derives .operand [⟨.operator .minus, none, p⟩, ⟨.int, some (.int (-v)), q⟩]
        (.unary .minus (.number (-v) q) p) :=
      .signed rfl (by decide) (number (-v) q)
    rw [htext]
    refine constant_ofSource settings (derives_of_operand hderives) ?_ hitems (by simp)
    change Except.ok (- -v) = _
    rw [Int64.neg_neg]

/-! ## The call -/

/-- A `.STRING` call that is next, outside raw mode: the tokens shown of its argument, which does
not begin with a name, and the stream at the closing parenthesis. -/
structure StringCall (settings : Settings) (s : Stream) (ts : List Token) (u : Stream) : Prop where
  name : (s.fetch settings).call? = some .string
  opener : (Advance.full settings (s.fetch settings)).kind = .leftParen
  argument : (Advance.full settings).Shows
    (Advance.full settings (Advance.full settings (s.fetch settings))) ts u
  first : ∀ t ∈ ts.head?, t.kind ≠ .ident
  closer : u.kind = .rightParen

/-- The parenthesis that closes the call turns into the text of the value. -/
theorem StringCall.advance_eq {settings : Settings} {s u : Stream} {ts : List Token}
    (h : StringCall settings s ts u) {e : Expr} {v : Int64} (he : Derives .whole ts e)
    (hv : e.eval settings.symbols = .ok v)
    (hlimit : (Decimal.ofInt64 v).utf8ByteSize ≤ settings.limits.maxStringLength) :
    s.advance settings = { u with current := .ofText (Decimal.ofInt64 v) u.current.span } := by
  let a := Advance.full settings
  have hopened : (a.consumeLeftParen (a (s.fetch settings))).2 = a (a (s.fetch settings)) := by
    rw [Advance.consumeLeftParen, Advance.consume, if_pos h.opener]
  have hfirst : (a (a (s.fetch settings))).kind ≠ .ident := by
    obtain ⟨t, us, rfl, -⟩ := he.head
    rw [Stream.kind, (Advance.Shows.cons_iff.mp h.argument).1]
    exact h.first t rfl
  have hread : (a.expression (a (a (s.fetch settings)))).read = (e, u) :=
    ((a.expression_iff _ u e).mpr ⟨ts, h.argument, he, by rw [h.closer]; rfl⟩).1
  have hargument : a.stringArgument settings (a (a (s.fetch settings)))
      = (Decimal.ofInt64 v, u) := by
    rw [Advance.stringArgument, if_neg hfirst, Advance.constant_eq, hread]
    dsimp only
    rw [hv]
  have hresolve : a.resolve settings .string (a.consumeLeftParen (a (s.fetch settings))).2
      = (.literal (Decimal.ofInt64 v), u) := by
    rw [hopened, Advance.resolve, hargument]
    dsimp only
    rw [if_neg (Nat.not_lt.mpr hlimit), Advance.literalAtParen, if_pos h.closer]
  change a s = _
  rw [Advance.advance_eq, h.name]
  exact Advance.expand_of_literal a hresolve

/-- **`.STRING` writes a text that is read back.** The argument is any expression that does not
begin with a name, and the text any value of it but the least word: the command line reads the
value back, and so does a source that has nothing but the text, without a report. -/
theorem string_reads_back {settings : Settings} {s u : Stream} {ts : List Token} {e : Expr}
    {v : Int64} (hlimit : 20 ≤ settings.limits.maxStringLength) (hcall : StringCall settings s ts u)
    (he : Derives .whole ts e) (hv : e.eval settings.symbols = .ok v) :
    s.advance settings = { u with current := .ofText (Decimal.ofInt64 v) u.current.span } ∧
      (v ≠ Int64.minValue →
        Number.argument? (Decimal.ofInt64 v) = some v ∧
          ∀ reading : Settings,
            let r := (Advance.full reading).constant reading.symbols
              ((ofSource (Decimal.ofInt64 v)).advance reading)
            r.1 = v ∧ r.2.log = #[] ∧ r.2.kind = .eof) := by
  constructor
  · exact hcall.advance_eq he hv (Nat.le_trans (Decimal.utf8ByteSize_ofInt64_le v) hlimit)
  · intro hleast
    exact ⟨Number.argument?_ofInt64 hleast, fun reading => constant_ofInt64 reading hleast⟩

theorem string_reads_back_negative :
    let a := Advance.full {}
    let s := ofSource ".string(-5)"
    let first := a (a (s.fetch {}))
    let u := a (a first)
    StringCall {} s [first.current, (a first).current] u ∧
      s.advance {} = { u with current := .ofText "-5" u.current.span } ∧
      Number.argument? "-5" = some (-5) := by
  intro a s first u
  have hcall : StringCall {} s [first.current, (a first).current] u :=
    ⟨by decide +kernel, by decide +kernel, .step (.step (.here _)),
      fun t ht => by rw [← Option.some.inj ht]; decide +kernel, by decide +kernel⟩
  have he : Derives .whole [first.current, (a first).current]
      (.unary .minus (.number ((a first).current.int?.getD 0) (a first).current.span)
        first.current.span) :=
    derives_of_operand (.signed (o := .minus) (by decide +kernel) (by decide)
      (.unsigned (.number (by decide +kernel))))
  have hv : (Expr.unary .minus (.number ((a first).current.int?.getD 0) (a first).current.span)
      first.current.span).eval {} = .ok (-5) := by
    have hfive : (a first).current.int?.getD 0 = 5 := by decide +kernel
    rw [hfive]
    rfl
  have htext : Decimal.ofInt64 (-5) = "-5" := by decide +kernel
  obtain ⟨hadvance, hback⟩ := string_reads_back (by decide) hcall he hv
  rw [htext] at hadvance hback
  exact ⟨hcall, hadvance, (hback (by decide)).1⟩

/-- The least word is written, and read back in neither place. -/
theorem string_reads_back_least :
    let text := Decimal.ofInt64 Int64.minValue
    let r := (Advance.full {}).constant {} ((ofSource text).advance {})
    ((ofSource ".string(-9223372036854775807-1)").advance {}).current
        = .ofText text ⟨1, 31, 32⟩ ∧
      Number.argument? text = none ∧ r.1 = 0 ∧ r.2.log ≠ #[] := by
  decide +kernel

end Stream

end AsmExpand
