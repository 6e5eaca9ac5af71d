import AsmExpand.Expr.Parser

/-!
# Induction along the parser

The levels of the parser call each other, and each call is on a tighter level or
behind a token. `levels_induct` is the induction that this allows, in terms of
what the levels read: to show something of a level at a stream, use it for the
levels that are read there and behind what they read.

One case needs no induction: a number with no operator behind it is read by every
level alike (`constant_of_int`).
-/

namespace AsmExpand.Advance

variable (advance : Advance)

/-- Something of each level (a whole expression, the binary operators up to a
rank, those behind a left operand, powers, operands, atoms) holds everywhere if
it is passed on from what a level reads to the level itself. -/
theorem levels_induct {whole : Stream → Prop} {upTo : Nat → Stream → Prop}
    {behind : Nat → Expr → Stream → Prop} {powers operand atom : Stream → Prop}
    (byteOf : ∀ s op, s.kind.byteOf? = some op → whole (advance s) → whole s)
    (conditional : ∀ s, s.kind.byteOf? = none → upTo loosest s →
      (∀ cond, (advance.binary loosest s).read = cond → cond.2.kind = .question →
        whole (advance cond.2) ∧
          ∀ yes, (advance.expression (advance cond.2)).read = yes → yes.2.kind = .colon →
            whole (advance yes.2)) →
      whole s)
    (tightest : ∀ s, powers s → upTo 0 s)
    (level : ∀ rank s, upTo rank s →
      (∀ left, (advance.binary rank s).read = left → behind rank left.1 left.2) →
      upTo (rank + 1) s)
    (last : ∀ rank left s, s.kind.binaryAt? (rank + 1) = none → behind rank left s)
    (link : ∀ rank left s op, s.kind.binaryAt? (rank + 1) = some op → upTo rank (advance s) →
      (∀ right, (advance.binary rank (advance s)).read = right →
        behind rank (.binary op left right.1 s.current.span) right.2) →
      behind rank left s)
    (raised : ∀ s, operand s →
      (∀ base, (advance.unary s).read = base → base.2.kind = .operator .power →
        powers (advance base.2)) →
      powers s)
    (signed : ∀ s op, s.kind.unary? = some op → operand (advance s) → operand s)
    (bare : ∀ s, s.kind.unary? = none → atom s → operand s)
    (parens : ∀ s, (s.kind = .leftParen → whole (advance s)) → atom s) :
    (∀ s, whole s) ∧ (∀ rank s, upTo rank s) ∧ (∀ rank left s, behind rank left s) ∧
      (∀ s, powers s) ∧ (∀ s, operand s) ∧ ∀ s, atom s := by
  apply expression.mutual_induct advance whole upTo behind powers operand atom
  case case1 => exact byteOf
  case case2 =>
    intro s h cond s₁ h₁ hc hq yes s₂ h₂ hy hk no s₃ h₃ _ hcond hyes hno
    refine conditional s h hcond fun c e _ => ?_
    rw [hc] at e
    subst e
    refine ⟨hyes, fun y e _ => ?_⟩
    simp only [Parsed.read, hy] at e
    subst e
    exact hno
  case case3 =>
    intro s h cond s₁ h₁ hc hq yes s₂ h₂ hy hk hcond hyes
    refine conditional s h hcond fun c e _ => ?_
    rw [hc] at e
    subst e
    refine ⟨hyes, fun y e hk' => ?_⟩
    simp only [Parsed.read, hy] at e
    subst e
    exact absurd hk' hk
  case case4 =>
    intro s h cond s₁ h₁ hc hq hcond
    refine conditional s h hcond fun c e hq' => ?_
    rw [hc] at e
    subst e
    exact absurd hq' hq
  case case5 => exact tightest
  case case6 =>
    intro s rank left s₁ h₁ hl hleft hbehind
    refine level rank s hleft fun l e => ?_
    rw [hl] at e
    subst e
    exact hbehind
  case case7 => exact last
  case case8 =>
    intro rank left s op h right s₁ h₁ hr hright hbehind
    refine link rank left s op h hright fun r e => ?_
    rw [hr] at e
    subst e
    exact hbehind
  case case9 =>
    intro s base s₁ h₁ hb hp hbase hpow
    refine raised s hbase fun b e _ => ?_
    rw [hb] at e
    subst e
    exact hpow
  case case10 =>
    intro s base s₁ h₁ hb hp hbase
    refine raised s hbase fun b e hp' => ?_
    rw [hb] at e
    subst e
    exact absurd hp' hp
  case case11 => exact signed
  case case12 => exact bare
  case case16 => exact fun s _ _ _ _ _ _ h => parens s fun _ => h
  case case17 => exact fun s _ _ _ _ _ _ h => parens s fun _ => h
  all_goals
    intro s
    intros
    refine parens s fun h => ?_
    simp_all

/-! ## A number by itself -/

variable {s : Stream}

/-- A number with no operator behind it is the whole operand. -/
theorem binary_of_int (rank : Nat) {v : Int64} (hk : s.kind = .int) (hv : s.current.int? = some v)
    (hop : (advance s).kind.operator? = none) :
    (advance.binary rank s).read = (.number v s.current.span, advance s) := by
  induction rank with
  | zero =>
    have hp : (advance.primary s).read = (.number v s.current.span, advance s) := by
      rw [advance.primary_read, hk, hv]
      rfl
    have hu : (advance.unary s).read = (.number v s.current.span, advance s) := by
      rw [advance.unary_read, hk]
      exact hp
    have hne : (advance s).kind ≠ .operator .power := by
      intro e
      rw [e] at hop
      cases hop
    rw [advance.binary_zero_read, advance.power_read, hu]
    exact if_neg hne
  | succ rank ih =>
    have hb : (advance s).kind.binaryAt? (rank + 1) = none := by
      rw [Kind.binaryAt?, hop]
      rfl
    rw [advance.binary_succ_read, ih]
    dsimp only
    rw [advance.chain_read, hb]

/-- A number with neither an operator nor a question mark behind it is its value. -/
theorem constant_of_int (symbols : SymbolTable) {v : Int64} (hk : s.kind = .int)
    (hv : s.current.int? = some v) (hop : (advance s).kind.operator? = none)
    (hq : (advance s).kind ≠ .question) : advance.constant symbols s = (v, advance s) := by
  have hread : (advance.expression s).read = (.number v s.current.span, advance s) := by
    rw [advance.expression_read, hk]
    change (if (advance.binary loosest s).read.2.kind = .question then _ else _) = _
    rw [advance.binary_of_int loosest hk hv hop]
    exact if_neg hq
  unfold constant
  generalize advance.expression s = p at *
  obtain ⟨e, t, h⟩ := p
  obtain ⟨rfl, rfl⟩ := Prod.mk.inj hread
  rfl

end AsmExpand.Advance
