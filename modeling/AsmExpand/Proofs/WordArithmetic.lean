import AsmExpand.Expr.Eval
import Mathlib.Algebra.Ring.Int.Parity
import Mathlib.Data.Int.ModEq
import Mathlib.Data.Nat.Prime.Basic

/-!
# The arithmetic of words

A word is the one integer between `-2 ^ 63` and `2 ^ 63` in its class modulo `2 ^ 64`. So an
operation that wraps round is known by the integer its value is congruent to
(`BinaryOp.WrapsTo`), and laws of the integers carry over to it.

Sums, differences and products are congruent to the exact ones, and so are powers by repeated
squaring. But an exponent is cut to `largestExponent` before. An even base does not show it: all
its large powers are zero modulo `2 ^ 64`. An odd base can be cancelled, and shows it unless its
power with what was cut off is one (`power_wraps`).

Quotients are cut towards zero. One of them is no word, that of the least word and -1; it wraps
round to the least word, and still fits the remainder (`quotient_fits_remainder`).
-/

namespace AsmExpand

/-! ## Words as residues -/

/-- An operation on two words gives the word that is congruent to an integer. -/
def BinaryOp.WrapsTo (op : BinaryOp) (l r : Int64) (i : Int) : Prop :=
  ∀ span, ∃ v, op.apply l r span = .ok v ∧ v.toInt ≡ i [ZMOD 2 ^ 64]

/-- A word is known by its residue. -/
theorem eq_of_toInt_modEq {v w : Int64} (h : v.toInt ≡ w.toInt [ZMOD 2 ^ 64]) : v = w := by
  have hv := v.le_toInt
  have hv' := v.toInt_lt
  have hw := w.le_toInt
  have hw' := w.toInt_lt
  rw [Int.ModEq] at h
  exact Int64.toInt_inj.mp (by omega)

/-- An integer is congruent to what it wraps round to. -/
theorem bmod_modEq (i : Int) : i.bmod (2 ^ 64) ≡ i [ZMOD 2 ^ 64] := Int.bmod_emod

theorem toInt_add_modEq (l r : Int64) : (l + r).toInt ≡ l.toInt + r.toInt [ZMOD 2 ^ 64] := by
  rw [Int64.toInt_add]
  exact bmod_modEq _

theorem toInt_sub_modEq (l r : Int64) : (l - r).toInt ≡ l.toInt - r.toInt [ZMOD 2 ^ 64] := by
  rw [Int64.toInt_sub]
  exact bmod_modEq _

theorem toInt_mul_modEq (l r : Int64) : (l * r).toInt ≡ l.toInt * r.toInt [ZMOD 2 ^ 64] := by
  rw [Int64.toInt_mul]
  exact bmod_modEq _

/-- A sum in range does not wrap round. -/
theorem toInt_add_of_nonneg {a b : Int64} (ha : 0 ≤ a) (hb : 0 ≤ b)
    (hab : a.toInt + b.toInt < 2 ^ 63) : (a + b).toInt = a.toInt + b.toInt := by
  have ha : 0 ≤ a.toInt := Int64.le_iff_toInt_le.mp ha
  have hb : 0 ≤ b.toInt := Int64.le_iff_toInt_le.mp hb
  rw [Int64.toInt_add, Int.bmod_eq_of_le (by omega) (by omega)]

theorem toInt_div_modEq (l r : Int64) : (l / r).toInt ≡ l.toInt.tdiv r.toInt [ZMOD 2 ^ 64] := by
  rw [Int64.toInt_div]
  exact bmod_modEq _

/-! ## Powers -/

/-- **Repeated squaring is exact** modulo the number of words. -/
theorem toInt_wordPower_modEq (base : Int64) (n : Nat) :
    (wordPower base n).toInt ≡ base.toInt ^ n [ZMOD 2 ^ 64] := by
  fun_induction wordPower base n with
  | case1 base =>
    rw [pow_zero]
    rfl
  | case2 base n hn half hodd ih =>
    have hhalf : half.toInt ≡ base.toInt ^ (2 * (n / 2)) [ZMOD 2 ^ 64] := by
      rw [pow_mul, sq]
      exact ih.trans ((toInt_mul_modEq base base).pow _)
    calc (base * half).toInt
        ≡ base.toInt * half.toInt [ZMOD 2 ^ 64] := toInt_mul_modEq base half
      _ ≡ base.toInt * base.toInt ^ (2 * (n / 2)) [ZMOD 2 ^ 64] := hhalf.mul_left _
      _ = base.toInt ^ n := by rw [← pow_succ', show 2 * (n / 2) + 1 = n by omega]
  | case3 base n hn half heven ih =>
    calc half.toInt
        ≡ (base * base).toInt ^ (n / 2) [ZMOD 2 ^ 64] := ih
      _ ≡ (base.toInt * base.toInt) ^ (n / 2) [ZMOD 2 ^ 64] := (toInt_mul_modEq base base).pow _
      _ = base.toInt ^ n := by rw [← sq, ← pow_mul, show 2 * (n / 2) = n by omega]

/-- The large powers of an even number are zero. -/
theorem pow_modEq_zero {i : Int} (hi : Even i) {n : Nat} (hn : 64 ≤ n) :
    i ^ n ≡ 0 [ZMOD 2 ^ 64] := by
  have h : (2 : Int) ^ 64 ∣ i ^ 64 := pow_dvd_pow_of_dvd (even_iff_two_dvd.mp hi) 64
  exact (h.trans (pow_dvd_pow i hn)).modEq_zero_int

/-- **Two large powers of a number are congruent** if and only if it is even or its power with the
difference of the exponents is one. -/
theorem pow_modEq_pow_iff (i : Int) {m n : Nat} (hm : 64 ≤ m) (hmn : m ≤ n) :
    i ^ m ≡ i ^ n [ZMOD 2 ^ 64] ↔ Even i ∨ i ^ (n - m) ≡ 1 [ZMOD 2 ^ 64] := by
  have hn : i ^ n = i ^ m * i ^ (n - m) := by rw [← pow_add, Nat.add_sub_cancel' hmn]
  constructor
  · intro h
    by_cases hi : Even i
    · exact Or.inl hi
    · right
      -- an odd number has no factor in common with the modulus
      have hgcd : Int.gcd (2 ^ 64) (i ^ m) = 1 := by
        rw [Int.gcd, Int.natAbs_pow, Int.natAbs_pow]
        exact Nat.Coprime.pow 64 m
          (Nat.coprime_two_left.mpr (Int.natAbs_odd.mpr (Int.not_even_iff_odd.mp hi)))
      have hcancel : i ^ m * i ^ (n - m) ≡ i ^ m * 1 [ZMOD 2 ^ 64] := by
        rw [← hn, mul_one]
        exact h.symm
      have := Int.ModEq.cancel_left_div_gcd (by decide) hcancel
      rwa [hgcd, Nat.cast_one, Int.ediv_one] at this
  · rintro (hi | hone)
    · exact (pow_modEq_zero hi hm).trans (pow_modEq_zero hi (hm.trans hmn)).symm
    · rw [hn]
      simpa using (hone.mul_left (i ^ m)).symm

/-- The exponent that an operand stands for. -/
def exponentOf (r : Int64) : Nat := min r.toInt.toNat largestExponent

namespace BinaryOp

/-- The integer that an operation wraps round is known up to congruence. -/
theorem WrapsTo.iff_modEq {op : BinaryOp} {l r : Int64} {i j : Int} (h : op.WrapsTo l r i) :
    op.WrapsTo l r j ↔ i ≡ j [ZMOD 2 ^ 64] := by
  constructor
  · intro hj
    obtain ⟨v, hv, hi⟩ := h {}
    obtain ⟨w, hw, hj⟩ := hj {}
    obtain rfl : v = w := Except.ok.inj (hv.symm.trans hw)
    exact hi.symm.trans hj
  · intro hij span
    obtain ⟨v, hv, hi⟩ := h span
    exact ⟨v, hv, hi.trans hij⟩

theorem apply_power {r : Int64} (hr : 0 ≤ r) (l : Int64) (span : Span) :
    power.apply l r span = .ok (wordPower l (exponentOf r)) := by
  rw [apply, if_neg (Int64.not_lt.mpr hr), exponentOf]

theorem wrapsTo_power {r : Int64} (hr : 0 ≤ r) (l : Int64) :
    power.WrapsTo l r (l.toInt ^ exponentOf r) :=
  fun span => ⟨_, apply_power hr l span, toInt_wordPower_modEq l _⟩

/-- A power is exact if its exponent is not cut, or if that makes no difference. -/
theorem wrapsTo_power_iff {r : Int64} (hr : 0 ≤ r) (l : Int64) :
    power.WrapsTo l r (l.toInt ^ r.toInt.toNat) ↔
      r.toInt.toNat ≤ largestExponent ∨ Even l.toInt ∨
        l.toInt ^ (r.toInt.toNat - largestExponent) ≡ 1 [ZMOD 2 ^ 64] := by
  rw [(wrapsTo_power hr l).iff_modEq, exponentOf]
  by_cases hle : r.toInt.toNat ≤ largestExponent
  · rw [Nat.min_eq_left hle]
    exact iff_of_true (Int.ModEq.refl _) (Or.inl hle)
  · rw [Nat.min_eq_right (by omega), pow_modEq_pow_iff _ (by decide) (by omega)]
    exact (or_iff_right hle).symm

/-- Powers with the exponents `a` and `b` make the power with their sum if that is not cut, or if
that makes no difference. -/
theorem wordPower_mul_iff (l : Int64) {a b : Int64} (ha : 0 ≤ a) (hb : 0 ≤ b)
    (hab : a.toInt + b.toInt < 2 ^ 63) :
    wordPower l (exponentOf a) * wordPower l (exponentOf b) = wordPower l (exponentOf (a + b)) ↔
      a.toInt + b.toInt ≤ largestExponent ∨ Even l.toInt ∨
        l.toInt ^ (exponentOf a + exponentOf b - largestExponent) ≡ 1 [ZMOD 2 ^ 64] := by
  have hsum := toInt_add_of_nonneg ha hb hab
  have ha : 0 ≤ a.toInt := Int64.le_iff_toInt_le.mp ha
  have hb : 0 ≤ b.toInt := Int64.le_iff_toInt_le.mp hb
  have hleft : (wordPower l (exponentOf a) * wordPower l (exponentOf b)).toInt
      ≡ l.toInt ^ (exponentOf a + exponentOf b) [ZMOD 2 ^ 64] := by
    rw [pow_add]
    exact (toInt_mul_modEq _ _).trans
      ((toInt_wordPower_modEq l _).mul (toInt_wordPower_modEq l _))
  have hright := toInt_wordPower_modEq l (exponentOf (a + b))
  have hresidues : wordPower l (exponentOf a) * wordPower l (exponentOf b)
        = wordPower l (exponentOf (a + b)) ↔
      l.toInt ^ exponentOf (a + b) ≡ l.toInt ^ (exponentOf a + exponentOf b) [ZMOD 2 ^ 64] := by
    refine ⟨fun h => hright.symm.trans (h ▸ hleft), fun h => eq_of_toInt_modEq ?_⟩
    exact (hleft.trans h.symm).trans hright.symm
  rw [hresidues]
  by_cases hle : a.toInt + b.toInt ≤ largestExponent
  · have hexponents : exponentOf (a + b) = exponentOf a + exponentOf b := by
      unfold exponentOf
      omega
    rw [hexponents]
    exact iff_of_true (Int.ModEq.refl _) (Or.inl hle)
  · have hcut : exponentOf (a + b) = largestExponent := by
      unfold exponentOf
      omega
    have hless : largestExponent ≤ exponentOf a + exponentOf b := by
      unfold exponentOf
      omega
    rw [hcut, pow_modEq_pow_iff _ (by decide) hless]
    exact (or_iff_right hle).symm

end BinaryOp

namespace Expr

/-- Operands with values are combined. -/
theorem eval_binary {symbols : SymbolTable} {left right : Expr} {l r : Int64}
    (hl : left.eval symbols = .ok l) (hr : right.eval symbols = .ok r) (op : BinaryOp)
    (span : Span) : (binary op left right span).eval symbols = op.apply l r span := by
  rw [eval, hl, hr]

end Expr

/-- **Powers are exact modulo the number of words, up to the largest exponent**, as sums,
differences and products are. A larger exponent acts as the largest one, and the power is exact
just if that makes no difference. So powers of one base are multiplied by adding the exponents, if
the sum is not too large or that makes no difference. -/
theorem power_wraps (l : Int64) :
    (∀ r : Int64, BinaryOp.add.WrapsTo l r (l.toInt + r.toInt) ∧
      BinaryOp.subtract.WrapsTo l r (l.toInt - r.toInt) ∧
      BinaryOp.multiply.WrapsTo l r (l.toInt * r.toInt)) ∧
    (∀ r : Int64, 0 ≤ r →
      BinaryOp.power.WrapsTo l r (l.toInt ^ exponentOf r) ∧
      (BinaryOp.power.WrapsTo l r (l.toInt ^ r.toInt.toNat) ↔
        r.toInt.toNat ≤ largestExponent ∨ Even l.toInt ∨
          l.toInt ^ (r.toInt.toNat - largestExponent) ≡ 1 [ZMOD 2 ^ 64])) ∧
    ∀ a b : Int64, 0 ≤ a → 0 ≤ b → a.toInt + b.toInt < 2 ^ 63 →
      ∀ (symbols : SymbolTable) (base first second : Expr) (span : Span),
        base.eval symbols = .ok l → first.eval symbols = .ok a → second.eval symbols = .ok b →
        ((Expr.binary .multiply (.binary .power base first span)
            (.binary .power base second span) span).eval symbols
          = (Expr.binary .power base (.binary .add first second span) span).eval symbols ↔
          a.toInt + b.toInt ≤ largestExponent ∨ Even l.toInt ∨
            l.toInt ^ (exponentOf a + exponentOf b - largestExponent) ≡ 1 [ZMOD 2 ^ 64]) := by
  refine ⟨fun r => ⟨?_, ?_, ?_⟩, fun r hr => ⟨?_, ?_⟩, ?_⟩
  · exact fun span => ⟨_, rfl, toInt_add_modEq l r⟩
  · exact fun span => ⟨_, rfl, toInt_sub_modEq l r⟩
  · exact fun span => ⟨_, rfl, toInt_mul_modEq l r⟩
  · exact BinaryOp.wrapsTo_power hr l
  · exact BinaryOp.wrapsTo_power_iff hr l
  · intro a b ha hb hab symbols base first second span hbase hfirst hsecond
    have hsum : 0 ≤ a + b := by
      rw [Int64.le_iff_toInt_le, toInt_add_of_nonneg ha hb hab]
      exact Int.add_nonneg (Int64.le_iff_toInt_le.mp ha) (Int64.le_iff_toInt_le.mp hb)
    have hpowers : ∀ {e : Expr} {r : Int64}, 0 ≤ r → e.eval symbols = .ok r →
        (Expr.binary .power base e span).eval symbols = .ok (wordPower l (exponentOf r)) :=
      fun hr he => (Expr.eval_binary hbase he .power span).trans (BinaryOp.apply_power hr l span)
    rw [hpowers hsum (Expr.eval_binary hfirst hsecond .add span),
      Expr.eval_binary (hpowers ha hfirst) (hpowers hb hsecond) .multiply span,
      ← BinaryOp.wordPower_mul_iff l ha hb hab]
    exact ⟨Except.ok.inj, congrArg Except.ok⟩

/-- The powers of an even base are exact however large the exponent is. -/
theorem power_wraps_even :
    let large : Int64 := 4294967296
    let two := Expr.number 2 {}
    BinaryOp.power.WrapsTo 2 large ((2 : Int64).toInt ^ large.toInt.toNat) ∧
      (Expr.binary .multiply (.binary .power two (.number large {}) {})
          (.binary .power two (.number 1 {}) {}) {}).eval {}
        = (Expr.binary .power two
            (.binary .add (.number large {}) (.number 1 {}) {}) {}).eval {} := by
  intro large two
  have heven : Even (2 : Int64).toInt := by decide
  obtain ⟨-, hpower, hproduct⟩ := power_wraps 2
  constructor
  · exact (hpower large (by decide)).2.mpr (Or.inr (Or.inl heven))
  · exact (hproduct large 1 (by decide) (by decide) (by decide) {} two (.number large {})
      (.number 1 {}) {} rfl rfl rfl).mpr (Or.inr (Or.inl heven))

/-- Minus one to the first exponent that is cut is not one, and no product of powers of which the
exponents make it. -/
theorem power_of_minus_one_cut :
    let r : Int64 := 4294967296
    let base := Expr.number (-1) {}
    BinaryOp.power.apply (-1) r {} = .ok (-1) ∧
      ¬BinaryOp.power.WrapsTo (-1) r ((-1 : Int64).toInt ^ r.toInt.toNat) ∧
      (Expr.binary .multiply (.binary .power base (.number (r - 1) {}) {})
          (.binary .power base (.number 1 {}) {}) {}).eval {} = .ok 1 ∧
      (Expr.binary .power base (.binary .add (.number (r - 1) {}) (.number 1 {}) {}) {}).eval {}
        = .ok (-1) := by
  intro r base
  refine ⟨by decide +kernel, ?_, by decide +kernel, by decide +kernel⟩
  rw [BinaryOp.wrapsTo_power_iff (by decide)]
  decide +kernel

/-! ## Quotients and remainders -/

/-- **Quotient and remainder make up the dividend**, also where the quotient wraps round. -/
theorem div_mul_add_mod (l r : Int64) : l / r * r + l % r = l := by
  refine eq_of_toInt_modEq ?_
  calc (l / r * r + l % r).toInt
      ≡ (l / r * r).toInt + (l % r).toInt [ZMOD 2 ^ 64] := toInt_add_modEq _ _
    _ ≡ (l / r).toInt * r.toInt + (l % r).toInt [ZMOD 2 ^ 64] :=
        (toInt_mul_modEq _ _).add_right _
    _ ≡ l.toInt.tdiv r.toInt * r.toInt + (l % r).toInt [ZMOD 2 ^ 64] :=
        ((toInt_div_modEq l r).mul_right _).add_right _
    _ = l.toInt := by rw [Int64.toInt_mod, Int.tdiv_mul_add_tmod]

/-- A remainder is smaller than the divisor, and on the side of zero that the dividend is on. -/
theorem mod_bounds (l : Int64) {r : Int64} (hr : r ≠ 0) :
    (l % r).toInt.natAbs < r.toInt.natAbs ∧
      (l % r = 0 ∨ (l % r).toInt.sign = l.toInt.sign) := by
  have hne : r.toInt ≠ 0 := fun h => hr (Int64.toInt_inj.mp h)
  rw [Int64.toInt_mod, Int.natAbs_tmod]
  refine ⟨Nat.mod_lt _ (Int.natAbs_pos.mpr hne), ?_⟩
  by_cases hdvd : r.toInt ∣ l.toInt
  · left
    rw [← Int64.toInt_inj, Int64.toInt_mod]
    exact Int.tmod_eq_zero_of_dvd hdvd
  · right
    rw [Int.sign_tmod, if_neg hdvd]

/-- Of all quotients only one is no word. -/
theorem toInt_div_of_ne {l r : Int64} (h : ¬(l = Int64.minValue ∧ r = -1)) :
    (l / r).toInt = l.toInt.tdiv r.toInt := by
  by_cases hl : l = Int64.minValue
  · exact Int64.toInt_div_of_ne_right l r fun hr => h ⟨hl, hr⟩
  · exact Int64.toInt_div_of_ne_left l r hl

/-- **Quotient and remainder fit together.** Both fail just if the divisor is zero, at the
operator. Else they make up the dividend, the remainder is smaller than the divisor and has the
sign of the dividend, and the quotient is the exact one cut towards zero, but for the one that is
no word. -/
theorem quotient_fits_remainder (l r : Int64) (span : Span) :
    (if r = 0 then
      BinaryOp.divide.apply l r span = .error ⟨.divisionByZero, span⟩ ∧
        BinaryOp.modulo.apply l r span = .error ⟨.moduloByZero, span⟩
    else
      ∃ q m p, BinaryOp.divide.apply l r span = .ok q ∧ BinaryOp.modulo.apply l r span = .ok m ∧
        BinaryOp.multiply.apply q r span = .ok p ∧ BinaryOp.add.apply p m span = .ok l ∧
        m.toInt.natAbs < r.toInt.natAbs ∧ (m = 0 ∨ m.toInt.sign = l.toInt.sign) ∧
        if l = Int64.minValue ∧ r = -1 then q = Int64.minValue
        else q.toInt = l.toInt.tdiv r.toInt) ∧
    ∀ (symbols : SymbolTable) (left right : Expr) (times percent plus : Span),
      left.eval symbols = .ok l → right.eval symbols = .ok r →
      (Expr.binary .add (.binary .multiply (.binary .divide left right span) right times)
          (.binary .modulo left right percent) plus).eval symbols
        = if r = 0 then .error ⟨.divisionByZero, span⟩ else .ok l := by
  by_cases hr : r = 0
  · rw [if_pos hr, if_pos hr]
    have hdivide : BinaryOp.divide.apply l r span = .error ⟨.divisionByZero, span⟩ := if_pos hr
    refine ⟨⟨hdivide, if_pos hr⟩, fun symbols left right times percent plus hleft hright => ?_⟩
    have hquotient := (Expr.eval_binary hleft hright .divide span).trans hdivide
    rw [Expr.eval, Expr.eval, hquotient]
  · rw [if_neg hr, if_neg hr]
    have hdivide : ∀ span, BinaryOp.divide.apply l r span = .ok (l / r) := fun _ => if_neg hr
    have hmodulo : ∀ span, BinaryOp.modulo.apply l r span = .ok (l % r) := fun _ => if_neg hr
    have hsum := div_mul_add_mod l r
    constructor
    · obtain ⟨hless, hsign⟩ := mod_bounds l hr
      refine ⟨l / r, l % r, l / r * r, hdivide span, hmodulo span, rfl, congrArg _ hsum, hless,
        hsign, ?_⟩
      split
      · rename_i h
        rw [h.1, h.2]
        decide
      · rename_i h
        exact toInt_div_of_ne h
    · intro symbols left right times percent plus hleft hright
      have hquotient := (Expr.eval_binary hleft hright .divide span).trans (hdivide span)
      have hremainder := (Expr.eval_binary hleft hright .modulo percent).trans (hmodulo percent)
      have hproduct := Expr.eval_binary hquotient hright .multiply times
      rw [Expr.eval_binary hproduct hremainder .add plus]
      exact congrArg _ hsum

/-- A dividend below zero, and the quotient that is no word. -/
theorem quotient_fits_remainder_least :
    let tree := fun l r : Int64 =>
      Expr.binary .add (.binary .multiply (.binary .divide (.number l {}) (.number r {}) {})
        (.number r {}) {}) (.binary .modulo (.number l {}) (.number r {}) {}) {}
    (tree (-7) 2).eval {} = .ok (-7) ∧ (tree Int64.minValue (-1)).eval {} = .ok Int64.minValue := by
  intro tree
  exact ⟨(quotient_fits_remainder (-7) 2 {}).2 {} (.number (-7) {}) (.number 2 {}) {} {} {} rfl rfl,
    (quotient_fits_remainder Int64.minValue (-1) {}).2 {} (.number Int64.minValue {})
      (.number (-1) {}) {} {} {} rfl rfl⟩

end AsmExpand
