import AsmExpand.Proofs.Delivery
import AsmExpand.Proofs.Lockstep
import AsmExpand.Proofs.Statements

/-!
# Raised limits

A limit occurs in comparisons only: a scanned constant is cut if it is longer, an argument
or a joined constant is refused if it is greater. Each time the comparison goes against the
source, that is reported, and what was reported stays on record. So a run that has no such
report on record made all its comparisons the other way, and goes the same way when the
limits are raised.

The argument follows one run under the lower limits and the other beside it, until the first
one hits a limit (`UnlessHit`). Each way of reading is followed to its end, by an advance that
is itself followed on small feeds (`FollowsUntilHit`); the advance of a stream's users is, by
induction on the size of the feed.
-/

namespace AsmExpand

/-- Whether a cause says that a limit was hit. -/
def Cause.isLimit : Cause → Bool
  | rangeError => true
  | stringTooLong => true
  | _ => false

/-- Limits nowhere below others. -/
structure Limits.RaisedTo (l m : Limits) : Prop where
  length : l.maxStringLength ≤ m.maxStringLength
  argument : l.argumentLimit ≤ m.argumentLimit

/-- A limit was hit. -/
def Stream.LimitHit (s : Stream) : Prop := ∃ d ∈ s.log, d.cause.isLimit = true

/-- What the one side came to, the other came to as well, unless the one has hit a limit. -/
def UnlessHit {α : Type} (p q : α × Stream) : Prop := p.2.LimitHit ∨ q = p

namespace UnlessHit

variable {α β : Type} {p q : α × Stream}

theorem refl (p : α × Stream) : UnlessHit p p := Or.inr rfl

theorem map (h : UnlessHit p q) (g : α → β) : UnlessHit (g p.1, p.2) (g q.1, q.2) := by
  rcases h with hit | rfl
  · exact Or.inl hit
  · exact refl _

end UnlessHit

/-! ## What was hit stays on record -/

namespace Stream

theorem LimitHit.reportAt {s : Stream} (h : s.LimitHit) (span : Span) (cause : Cause) :
    (s.reportAt span cause).LimitHit := by
  obtain ⟨d, hd, hc⟩ := h
  exact ⟨d, Array.mem_push_of_mem _ hd, hc⟩

theorem limitHit_reportAt (s : Stream) (span : Span) {cause : Cause} (h : cause.isLimit = true) :
    (s.reportAt span cause).LimitHit :=
  ⟨_, Array.mem_push_self, h⟩

theorem LimitHit.fetch {s : Stream} (h : s.LimitHit) (settings : Settings) :
    (s.fetch settings).LimitHit := by
  obtain ⟨d, hd, hc⟩ := h
  obtain ⟨ds, hds⟩ := Feed.exists_next_log settings.limits.maxStringLength s.feed
  refine ⟨d, ?_, hc⟩
  rw [Stream.fetch, hds]
  exact Array.mem_append_left ds hd

/-- A limit hit when a token is taken, or before, is on record from then on. -/
theorem limitHit_upkeep (settings : Settings) :
    Upkeep settings (fun s => (s.fetch settings).LimitHit) LimitHit where
  take := fun h _ => h
  call := fun h _ => h.fetch settings
  ahead := fun h _ => h.fetch settings
  report := fun h span cause _ => h.reportAt span cause
  literal := fun h _ _ _ => h
  window := fun h _ _ => LimitHit.fetch (s := push _ _) h settings

end Stream

/-! ## Readers -/

namespace Advance

/-- Where at most `n` tokens are to come, one advance goes the way of the other unless that
one hits a limit, which then stays on record. -/
structure FollowsUntilHit (n : Nat) (a b : Advance) : Prop where
  step : ∀ {s : Stream}, s.feed.size ≤ n → (a s).LimitHit ∨ b s = a s
  keeps : ∀ {s : Stream}, s.LimitHit → (a s).LimitHit

/-- To read leaves no more to come. -/
theorem size_le (a : Advance) (s : Stream) : (a s).feed.size ≤ s.feed.size :=
  Nat.le_trans (a s).size_le_load (a.pays s)

theorem size_invariant (a : Advance) (n : Nat) : Invariant a (fun s => s.feed.size ≤ n) where
  step := fun h _ => Nat.le_trans (a.size_le _) h
  report := fun h _ _ _ => h

theorem limitHit_literalAtParen {s : Stream} (h : s.LimitHit) (value : String) :
    (literalAtParen value s).2.LimitHit := by
  unfold literalAtParen
  split
  · exact h
  · exact h.reportAt _ _

namespace FollowsUntilHit

variable {n : Nat} {a b : Advance}

theorem invariant (h : FollowsUntilHit n a b) : Invariant a Stream.LimitHit where
  step := fun hit _ => h.keeps hit
  report := fun hit span cause _ => hit.reportAt span cause

/-- One step, with anything beside it. -/
theorem beside (h : FollowsUntilHit n a b) {s : Stream} (hs : s.feed.size ≤ n) {α : Type} (x : α) :
    UnlessHit (x, a s) (x, b s) := by
  rcases h.step hs with hit | hab
  · exact Or.inl hit
  · rw [hab]
    exact .refl _

theorem skipToSeparator (h : FollowsUntilHit n a b) {s : Stream} (hs : s.feed.size ≤ n) :
    (a.skipToSeparator s).LimitHit ∨ b.skipToSeparator s = a.skipToSeparator s := by
  fun_induction Advance.skipToSeparator a s with
  | case1 s hk =>
    rw [Advance.skipToSeparator, dif_pos hk]
    exact Or.inr rfl
  | case2 s hk ih =>
    have hb : b.skipToSeparator s = b.skipToSeparator (b s) := by
      rw [Advance.skipToSeparator, dif_neg hk]
    rw [hb]
    rcases h.step hs with hit | hab
    · exact Or.inl (h.invariant.skipToSeparator hit)
    · rw [hab]
      exact ih (Nat.le_trans (a.size_le s) hs)

theorem consume (h : FollowsUntilHit n a b) {s : Stream} (hs : s.feed.size ≤ n) (expected : Kind)
    (absent : Cause) : UnlessHit (a.consume expected absent s) (b.consume expected absent s) := by
  unfold Advance.consume
  split
  · exact h.beside hs true
  · exact .refl _

theorem collect (h : FollowsUntilHit n a b) {s : Stream} (hs : s.feed.size ≤ n) (depth : Nat) :
    UnlessHit (a.collect depth s) (b.collect depth s) := by
  fun_induction Advance.collect a depth s with
  | case1 depth s hk =>
    rw [Advance.collect, dif_pos hk]
    exact .refl _
  | case2 depth s hk hr =>
    rw [Advance.collect, dif_neg hk, if_pos hr]
    exact h.beside hs []
  | case3 depth s hk hr ts s' hc ih =>
    have ih := ih (Nat.le_trans (a.size_le s) hs)
    rw [hc] at ih
    rw [Advance.collect, dif_neg hk, if_neg hr]
    rcases h.step hs with hit | hab
    · have hcollect := h.invariant.collect hit (parensAfter depth s.kind)
      rw [hc] at hcollect
      exact Or.inl hcollect
    · rw [hab]
      exact ih.map (s.current :: ·)

theorem levels (h : FollowsUntilHit n a b) :
    (∀ s, s.feed.size ≤ n → UnlessHit (a.expression s).read (b.expression s).read) ∧
    (∀ rank s, s.feed.size ≤ n → UnlessHit (a.binary rank s).read (b.binary rank s).read) ∧
    (∀ rank left s, s.feed.size ≤ n →
      UnlessHit (a.chain rank left s).read (b.chain rank left s).read) ∧
    (∀ s, s.feed.size ≤ n → UnlessHit (a.power s).read (b.power s).read) ∧
    (∀ s, s.feed.size ≤ n → UnlessHit (a.unary s).read (b.unary s).read) ∧
    (∀ s, s.feed.size ≤ n → UnlessHit (a.primary s).read (b.primary s).read) := by
  -- a limit that was hit stays on record, and what is to come stays small
  obtain ⟨hitWhole, -, hitBehind, hitPower, hitOperand, -⟩ := h.invariant.levels
  obtain ⟨smallWhole, smallUpTo, -, -, smallOperand, -⟩ := (a.size_invariant n).levels
  have small : ∀ {s : Stream}, s.feed.size ≤ n → (a s).feed.size ≤ n :=
    fun hs => Nat.le_trans (a.size_le _) hs
  apply levels_induct a
  case byteOf =>
    intro s op hop ih hs
    rw [a.expression_read, b.expression_read]
    simp only [hop]
    rcases h.step hs with hit | hab
    · exact Or.inl (hitWhole _ hit)
    · rw [hab]
      exact (ih (small hs)).map (Expr.unary op · s.current.span)
  case conditional =>
    intro s hop ihc ih hs
    rw [a.expression_read, b.expression_read]
    simp only [hop]
    have hcond := ihc hs
    have hsmall := smallUpTo loosest s hs
    have ih := ih _ rfl
    generalize (a.binary loosest s).read = cond at *
    generalize (b.binary loosest s).read = cond' at *
    have keepsNo : ∀ yes : Expr × Stream, yes.2.LimitHit →
        (if yes.2.kind = .colon then
            let no := (a.expression (a yes.2)).read
            (Expr.conditional cond.1 yes.1 no.1 cond.2.current.span, no.2)
          else (.error .missingColon yes.2.current.span, yes.2)).2.LimitHit := by
      intro yes hit
      split
      · rename_i hk
        exact hitWhole _ (h.keeps hit)
      · exact hit
    by_cases hq : cond.2.kind = .question
    · rcases hcond with hit | rfl
      · simp only [hq, if_true]
        exact Or.inl (keepsNo _ (hitWhole _ (h.keeps hit)))
      · simp only [hq, if_true]
        rcases h.step hsmall with hit | hab
        · exact Or.inl (keepsNo _ (hitWhole _ hit))
        · obtain ⟨ihy, ihn⟩ := ih hq
          have hyes := ihy (small hsmall)
          have ihn := ihn _ rfl
          have hsmall₂ := smallWhole _ (small hsmall)
          rw [hab]
          generalize (a.expression (a cond'.2)).read = yes at *
          generalize (b.expression (a cond'.2)).read = yes' at *
          rcases hyes with hit | rfl
          · exact Or.inl (keepsNo _ hit)
          · by_cases hk : yes'.2.kind = .colon
            · simp only [hk, if_true]
              rcases h.step hsmall₂ with hit | hab
              · exact Or.inl (hitWhole _ hit)
              · rw [hab]
                exact (ihn hk (small hsmall₂)).map
                  (Expr.conditional cond'.1 yes'.1 · cond'.2.current.span)
            · simp only [hk, if_false]
              exact .refl _
    · rcases hcond with hit | rfl
      · simp only [hq, if_false]
        exact Or.inl hit
      · simp only [hq, if_false]
        exact .refl _
  case tightest =>
    intro s ih hs
    rw [a.binary_zero_read, b.binary_zero_read]
    exact ih hs
  case level =>
    intro rank s ihl ihb hs
    rw [a.binary_succ_read, b.binary_succ_read]
    have hleft := ihl hs
    have ihb := ihb _ rfl (smallUpTo rank s hs)
    generalize (a.binary rank s).read = left at *
    generalize (b.binary rank s).read = left' at *
    rcases hleft with hit | rfl
    · exact Or.inl (hitBehind rank left.1 left.2 hit)
    · exact ihb
  case last =>
    intro rank left s hop hs
    rw [a.chain_read, b.chain_read]
    simp only [hop]
    exact .refl _
  case link =>
    intro rank left s op hop ihr ihb hs
    rw [a.chain_read, b.chain_read]
    simp only [hop]
    rcases h.step hs with hit | hab
    · exact Or.inl (hitBehind _ _ _ (h.invariant.levels.2.1 rank _ hit))
    · rw [hab]
      have hright := ihr (small hs)
      have ihb := ihb _ rfl (smallUpTo rank _ (small hs))
      generalize (a.binary rank (a s)).read = right at *
      generalize (b.binary rank (a s)).read = right' at *
      rcases hright with hit | rfl
      · exact Or.inl (hitBehind _ _ _ hit)
      · exact ihb
  case raised =>
    intro s ihb ihp hs
    rw [a.power_read, b.power_read]
    have hbase := ihb hs
    have hsmall := smallOperand s hs
    have ihp := ihp _ rfl
    generalize (a.unary s).read = base at *
    generalize (b.unary s).read = base' at *
    by_cases hp : base.2.kind = .operator .power
    · rcases hbase with hit | rfl
      · simp only [hp, if_true]
        exact Or.inl (hitPower _ (h.keeps hit))
      · simp only [hp, if_true]
        rcases h.step hsmall with hit | hab
        · exact Or.inl (hitPower _ hit)
        · rw [hab]
          exact (ihp hp (small hsmall)).map
            (Expr.binary .power base'.1 · base'.2.current.span)
    · rcases hbase with hit | rfl
      · simp only [hp, if_false]
        exact Or.inl hit
      · simp only [hp, if_false]
        exact .refl _
  case signed =>
    intro s op hop ih hs
    rw [a.unary_read, b.unary_read]
    simp only [hop]
    rcases h.step hs with hit | hab
    · exact Or.inl (hitOperand _ hit)
    · rw [hab]
      exact (ih (small hs)).map (Expr.unary op · s.current.span)
  case bare =>
    intro s hop ih hs
    rw [a.unary_read, b.unary_read]
    simp only [hop]
    exact ih hs
  case parens =>
    intro s ih hs
    rw [a.primary_read, b.primary_read]
    split
    · exact h.beside hs _
    · exact h.beside hs _
    · exact h.beside hs _
    · rename_i hk
      have keepsClosed : ∀ r : Expr × Stream, r.2.LimitHit →
          (if r.2.kind = .rightParen then (r.1, a r.2)
            else (.error .missingParen r.2.current.span, r.2)).2.LimitHit := by
        intro r hit
        split
        · rename_i hr
          exact h.keeps hit
        · exact hit
      rcases h.step hs with hit | hab
      · exact Or.inl (keepsClosed _ (hitWhole _ hit))
      · rw [hab]
        have hinner := ih hk (small hs)
        have hsmall := smallWhole _ (small hs)
        generalize (a.expression (a s)).read = r at *
        generalize (b.expression (a s)).read = r' at *
        rcases hinner with hit | rfl
        · exact Or.inl (keepsClosed _ hit)
        · by_cases hr : r'.2.kind = .rightParen
          · simp only [hr, if_true]
            exact h.beside hsmall r'.1
          · simp only [hr, if_false]
            exact .refl _
    · split
      · exact .refl _
      · exact .refl _

theorem constant (h : FollowsUntilHit n a b) {s : Stream} (hs : s.feed.size ≤ n)
    (symbols : SymbolTable) : UnlessHit (a.constant symbols s) (b.constant symbols s) := by
  have hread := h.levels.1 s hs
  unfold Advance.constant
  generalize a.expression s = p at *
  generalize b.expression s = q at *
  obtain ⟨e, s₁, hp⟩ := p
  obtain ⟨e', s₁', hq⟩ := q
  simp only [Parsed.read] at hread
  rcases hread with hit | heq
  · left
    simp only
    split
    · exact hit
    · exact Stream.LimitHit.reportAt hit _ _
  · obtain ⟨rfl, rfl⟩ := Prod.mk.inj heq
    exact .refl _

/-! ### Calls -/

variable {l m : Limits} (symbols : SymbolTable)

theorem rangeArgument (h : FollowsUntilHit n a b) (raised : l.RaisedTo m) {s : Stream}
    (hs : s.feed.size ≤ n) (fallback : Nat) :
    UnlessHit (a.rangeArgument ⟨l, symbols⟩ fallback s)
      (b.rangeArgument ⟨m, symbols⟩ fallback s) := by
  have hconstant := h.constant hs symbols
  unfold Advance.rangeArgument
  dsimp only
  generalize a.constant symbols s = r at *
  generalize b.constant symbols s = r' at *
  rcases hconstant with hit | rfl
  · left
    split
    · exact hit
    · exact Stream.LimitHit.reportAt hit _ _
  · by_cases hr : 0 ≤ r'.1 ∧ r'.1 ≤ l.argumentLimit
    · -- an argument in the narrow range is in the wide one
      rw [if_pos hr, if_pos ⟨hr.1, Int64.le_trans hr.2 raised.argument⟩]
      exact .refl _
    · rw [if_neg hr]
      exact Or.inl (Stream.limitHit_reportAt _ _ rfl)

theorem abandon (h : FollowsUntilHit n a b) {s : Stream} (hs : s.feed.size ≤ n) (cause : Cause) :
    UnlessHit (a.abandon cause s) (b.abandon cause s) := by
  unfold Advance.abandon
  rcases h.skipToSeparator (s := s.report cause) hs with hit | hab
  · exact Or.inl hit
  · rw [hab]
    exact .refl _

/-- A call that is given up for a limit has hit it. -/
theorem abandon_of_isLimit (h : FollowsUntilHit n a b) (s : Stream) {cause : Cause}
    (hc : cause.isLimit = true) : (a.abandon cause s).2.LimitHit :=
  h.invariant.skipToSeparator (Stream.limitHit_reportAt s _ hc)

theorem join (h : FollowsUntilHit n a b) (raised : l.RaisedTo m) {s : Stream}
    (hs : s.feed.size ≤ n) (value : String) :
    UnlessHit (a.join ⟨l, symbols⟩ value s) (b.join ⟨m, symbols⟩ value s) := by
  fun_induction Advance.join a ⟨l, symbols⟩ value s with
  | case1 value s hk =>
    rw [Advance.join, dif_pos hk]
    exact h.abandon hs _
  | case2 value s hk hl => exact Or.inl (h.abandon_of_isLimit s rfl)
  | case3 value s hk hl s₁ hc =>
    rename_i ih
    have hsmall : s₁.feed.size ≤ n := Nat.le_trans (a.size_le s) hs
    have hfits := Nat.le_trans (Nat.le_of_not_lt hl) raised.length
    have hb : b.join ⟨m, symbols⟩ value s = if (b s).kind = .comma
        then b.join ⟨m, symbols⟩ (value ++ s.current.text) (b (b s))
        else literalAtParen (value ++ s.current.text) (b s) := by
      rw [Advance.join, dif_neg hk, if_neg (Nat.not_lt_of_le hfits)]
    rw [hb]
    rcases h.step hs with hit | hab
    · exact Or.inl (h.invariant.join (h.keeps hit) _ _)
    · rw [hab, if_pos hc]
      rcases h.step hsmall with hit | hab₁
      · exact Or.inl (h.invariant.join hit _ _)
      · rw [hab₁]
        exact ih (Nat.le_trans (a.size_le s₁) hsmall)
  | case4 value s hk hl s₁ =>
    rename_i hc
    have hfits := Nat.le_trans (Nat.le_of_not_lt hl) raised.length
    rw [Advance.join, dif_neg hk, if_neg (Nat.not_lt_of_le hfits)]
    rcases h.step hs with hit | hab
    · exact Or.inl (limitHit_literalAtParen hit _)
    · simp only [hab]
      rw [if_neg hc]
      exact .refl _

theorem stringArgument (h : FollowsUntilHit n a b) {s : Stream} (hs : s.feed.size ≤ n) :
    UnlessHit (a.stringArgument ⟨l, symbols⟩ s) (b.stringArgument ⟨m, symbols⟩ s) := by
  unfold Advance.stringArgument
  split
  · exact h.beside hs s.current.text
  · exact (h.constant hs symbols).map Decimal.ofInt64

/-- One more argument and the comma behind it, after what was read before. -/
theorem argument (h : FollowsUntilHit n a b) (raised : l.RaisedTo m) {α : Type} {p q : α × Stream}
    (hpq : UnlessHit p q) (hs : p.2.feed.size ≤ n) (fallback : Nat) :
    let r := a.rangeArgument ⟨l, symbols⟩ fallback p.2
    let r' := b.rangeArgument ⟨m, symbols⟩ fallback q.2
    UnlessHit ((p.1, r.1), (a.consumeComma r.2).2) ((q.1, r'.1), (b.consumeComma r'.2).2) ∧
      (a.consumeComma r.2).2.feed.size ≤ n := by
  intro r r'
  have small := a.size_invariant n
  have hsr : r.2.feed.size ≤ n := small.rangeArgument hs ⟨l, symbols⟩ fallback
  refine ⟨?_, small.consume hsr .comma .commaExpected⟩
  have comma : r.2.LimitHit → (a.consumeComma r.2).2.LimitHit :=
    fun hit => h.invariant.consume hit .comma .commaExpected
  rcases hpq with hit | rfl
  · exact Or.inl (comma (h.invariant.rangeArgument hit ⟨l, symbols⟩ fallback))
  · rcases h.rangeArgument symbols raised hs fallback with hit | hr
    · exact Or.inl (comma hit)
    · rw [show r' = r from hr]
      rcases h.consume hsr .comma .commaExpected with hit | hc
      · exact Or.inl hit
      · exact Or.inr (by rw [consumeComma, consumeComma, hc])

/-- The list that ends a call, after what was read before. -/
theorem list (h : FollowsUntilHit n a b) {α : Type} {p q : α × Stream} (hpq : UnlessHit p q)
    (hs : p.2.feed.size ≤ n) (window : α → List Token → Outcome) :
    UnlessHit (window p.1 (a.collect 0 p.2).1, (a.collect 0 p.2).2)
      (window q.1 (b.collect 0 q.2).1, (b.collect 0 q.2).2) := by
  rcases hpq with hit | rfl
  · exact Or.inl (h.invariant.collect hit 0)
  · exact (h.collect hs 0).map (window q.1)

theorem resolve (h : FollowsUntilHit n a b) (raised : l.RaisedTo m) {s : Stream}
    (hs : s.feed.size ≤ n) (fn : TokenFunction) :
    UnlessHit (a.resolve ⟨l, symbols⟩ fn s) (b.resolve ⟨m, symbols⟩ fn s) := by
  have start : UnlessHit ((), s) ((), s) := .refl _
  cases fn with
  | concat => exact h.join symbols raised hs ""
  | left =>
    obtain ⟨hcount, hs⟩ := h.argument symbols raised start hs 1
    exact h.list hcount hs fun x ts => .window (Window.slice 0 x.2 ts)
  | mid =>
    obtain ⟨hstart, hs⟩ := h.argument symbols raised start hs 0
    obtain ⟨hcount, hs⟩ := h.argument symbols raised hstart hs 1
    exact h.list hcount hs fun x ts => .window (Window.slice x.1.2 x.2 ts)
  | right =>
    obtain ⟨hcount, hs⟩ := h.argument symbols raised start hs 1
    exact h.list hcount hs fun x ts => .window (Window.last x.2 ts)
  | string =>
    have hvalue := h.stringArgument (l := l) (m := m) symbols hs
    have hsmall := (a.size_invariant n).stringArgument hs ⟨l, symbols⟩
    simp only [Advance.resolve]
    generalize a.stringArgument ⟨l, symbols⟩ s = r at *
    generalize b.stringArgument ⟨m, symbols⟩ s = r' at *
    by_cases hl : l.maxStringLength < r.1.utf8ByteSize
    · rw [if_pos hl]
      exact Or.inl (h.abandon_of_isLimit r.2 rfl)
    · rw [if_neg hl]
      rcases hvalue with hit | rfl
      · exact Or.inl (limitHit_literalAtParen hit _)
      · rw [if_neg (Nat.not_lt_of_le (Nat.le_trans (Nat.le_of_not_lt hl) raised.length))]
        exact .refl _

/-- A limit hit before the last step of a call has been hit behind it. -/
theorem limitHit_expand (h : FollowsUntilHit n a b) (s : Stream) (fn : TokenFunction)
    (hit : (a.resolve ⟨l, symbols⟩ fn (a.consumeLeftParen (a s)).2).2.LimitHit) :
    (a.expand ⟨l, symbols⟩ fn s).LimitHit := by
  unfold Advance.expand
  generalize a.consumeLeftParen (a s) = opened at *
  obtain ⟨_, u⟩ := opened
  simp only at hit ⊢
  generalize a.resolve ⟨l, symbols⟩ fn u = r at *
  obtain ⟨outcome, v⟩ := r
  cases outcome with
  | literal value => exact hit
  | window ts => exact h.keeps hit
  | abandoned => exact hit

/-- **An expansion is followed to its end**, unless it hits a limit. -/
theorem expand (h : FollowsUntilHit n a b) (raised : l.RaisedTo m) {s : Stream}
    (hs : s.feed.size ≤ n) (fn : TokenFunction) :
    (a.expand ⟨l, symbols⟩ fn s).LimitHit ∨
      b.expand ⟨m, symbols⟩ fn s = a.expand ⟨l, symbols⟩ fn s := by
  have small := a.size_invariant n
  have hs₁ : (a s).feed.size ≤ n := Nat.le_trans (a.size_le s) hs
  have hs₂ : (a.consumeLeftParen (a s)).2.feed.size ≤ n :=
    small.consume hs₁ .leftParen .leftParenExpected
  have hclosed := h.limitHit_expand (l := l) symbols s fn
  -- what the call has read, its window included, came out of the feed
  have hpaid := Nat.le_trans (a.load_resolve_le ⟨l, symbols⟩ fn (a.consumeLeftParen (a s)).2)
    (Nat.le_trans (a.load_consume_le .leftParen .leftParenExpected (a s)) (a.pays s))
  have hopen : UnlessHit (a.consumeLeftParen (a s)) (b.consumeLeftParen (b s)) := by
    rcases h.step hs with hit | hab
    · exact Or.inl (h.invariant.consume hit .leftParen .leftParenExpected)
    · rw [hab]
      exact h.consume hs₁ .leftParen .leftParenExpected
  rcases hopen with hit | hopen
  · exact Or.inl (hclosed (h.invariant.resolve hit ⟨l, symbols⟩ fn))
  rcases h.resolve symbols raised hs₂ fn with hit | hresolve
  · exact Or.inl (hclosed hit)
  unfold Advance.expand
  rw [hopen]
  generalize a.consumeLeftParen (a s) = opened at *
  obtain ⟨_, u⟩ := opened
  simp only at hresolve hpaid ⊢
  rw [hresolve]
  generalize a.resolve ⟨l, symbols⟩ fn u = r at *
  obtain ⟨outcome, v⟩ := r
  cases outcome with
  | literal value => exact Or.inr rfl
  | window ts =>
    refine h.step (Nat.le_trans ?_ hs)
    simp only [Stream.size_feed_push, liveCount_append, liveCount_cons, liveCount_nil]
    simp only [Stream.load, outcomeCount] at hpaid
    omega
  | abandoned => exact Or.inr rfl

end FollowsUntilHit

end Advance

/-! ## Tokens under raised limits -/

variable {l m : Limits} (symbols : SymbolTable)

/-- A scan is drawn alike, unless a constant is too long for the lower limit. -/
theorem Feed.draw_raised (raised : l.RaisedTo m) (endSpan : Span) (log : Diagnostics)
    (items : List Item) :
    (∃ d ∈ (draw l.maxStringLength endSpan log items).log, d.cause.isLimit = true) ∨
      draw m.maxStringLength endSpan log items = draw l.maxStringLength endSpan log items := by
  fun_induction draw l.maxStringLength endSpan log items with
  | case1 => exact Or.inr rfl
  | case2 log t items =>
    cases hl : t.isTooLong l.maxStringLength with
    | true =>
      refine Or.inl ⟨{ span := t.span, cause := .stringTooLong }, ?_, rfl⟩
      simp [checkedLog, hl, Diagnostics.report]
    | false =>
      have hm : t.isTooLong m.maxStringLength = false := by
        simp only [Token.isTooLong, Bool.and_eq_false_iff, decide_eq_false_iff_not] at hl ⊢
        have hlength := raised.length
        exact hl.imp id fun hn => by omega
      rw [draw, checked, checkedLog, checked, checkedLog, hl, hm]
      exact Or.inr rfl
  | case3 log e items ih =>
    rw [draw]
    exact ih

namespace Stream

theorem fetch_raised (raised : l.RaisedTo m) (s : Stream) :
    (s.fetch ⟨l, symbols⟩).LimitHit ∨ s.fetch ⟨m, symbols⟩ = s.fetch ⟨l, symbols⟩ := by
  unfold Stream.fetch Feed.next
  cases Feed.popPending? s.feed.pending with
  | some p => exact Or.inr rfl
  | none =>
    rcases Feed.draw_raised raised s.feed.scan.endSpan s.log s.feed.scan.items with hit | hd
    · exact Or.inl hit
    · right
      simp only [hd]

theorem followsUntilHit_of_size_le (raised : l.RaisedTo m) (n : Nat) :
    Advance.FollowsUntilHit n (Advance.full ⟨l, symbols⟩) (Advance.full ⟨m, symbols⟩) := by
  have keeps : ∀ {s : Stream}, s.LimitHit → (s.advance ⟨l, symbols⟩).LimitHit :=
    fun hit => (limitHit_upkeep ⟨l, symbols⟩).advance (hit.fetch _)
  induction n using Nat.strongRecOn with
  | ind n ih =>
    refine ⟨fun {s} hs => ?_, keeps⟩
    rcases fetch_raised symbols raised s with hit | hfetch
    · exact Or.inl ((limitHit_upkeep ⟨l, symbols⟩).advance hit)
    rw [Advance.advance_eq ⟨l, symbols⟩, Advance.advance_eq ⟨m, symbols⟩, hfetch]
    cases hc : (s.fetch ⟨l, symbols⟩).call? with
    | none => exact Or.inr rfl
    | some fn =>
      -- the feed inside the call is smaller
      have hlt := Advance.size_feed_lt_of_call? hc
      exact (ih _ (by omega)).expand symbols raised (Nat.le_refl _) fn

/-! ## Sources under raised limits -/

theorem limitHit_invariant (settings : Settings) :
    Invariant (Advance.full settings) LimitHit :=
  (limitHit_upkeep settings).invariant

theorem LimitHit.consumeSeparator {s : Stream} (h : s.LimitHit) (settings : Settings) :
    (s.consumeSeparator settings).LimitHit := by
  unfold Stream.consumeSeparator Advance.consumeSeparator
  split
  · exact h
  · exact (limitHit_upkeep settings).advance (h.fetch settings)
  · exact (limitHit_invariant settings).skipToSeparator (h.reportAt _ _)

theorem LimitHit.openBlock {s : Stream} (h : s.LimitHit) : s.openBlock.LimitHit := by
  unfold Stream.openBlock
  split
  · exact h
  · exact h

theorem LimitHit.closeBlock {s : Stream} (h : s.LimitHit) (start : Stream) :
    (Stream.closeBlock start s).LimitHit := by
  unfold Stream.closeBlock
  split
  · exact h
  · exact h

theorem LimitHit.reportOpenBlocks {s : Stream} (h : s.LimitHit) (n : Nat) :
    (Stream.reportOpenBlocks n s).LimitHit := by
  induction n generalizing s with
  | zero => exact h
  | succ n ih => exact ih (h.reportAt _ _)

theorem LimitHit.readLines {s : Stream} (h : s.LimitHit) (settings : Settings)
    (lines : Array Line) : (s.readLines settings lines).2.LimitHit := by
  obtain ⟨u, hu, _, hread⟩ := exists_readLines_eq settings (P := LimitHit)
    (fun hs _ => (((limitHit_invariant settings).statement hs.openBlock).1.closeBlock
      _).consumeSeparator settings) h lines
  rw [hread]
  exact hu.reportOpenBlocks u.rawDepth

theorem statement_raised (raised : l.RaisedTo m) (s : Stream) :
    UnlessHit (s.statement ⟨l, symbols⟩) (s.statement ⟨m, symbols⟩) := by
  fun_induction Stream.statement ⟨l, symbols⟩ s with
  | case1 s hk =>
    rw [Stream.statement, dif_pos hk]
    exact .refl _
  | case2 s hk ts s' hr ih =>
    rw [hr] at ih
    rw [Stream.statement, dif_neg hk]
    have hfollows := followsUntilHit_of_size_le symbols raised s.feed.size
    rcases hfollows.step (Nat.le_refl _) with hit | hab
    · have hrest := ((limitHit_invariant ⟨l, symbols⟩).statement hit).1
      rw [show (Advance.full ⟨l, symbols⟩ s).statement ⟨l, symbols⟩ = (ts, s') from hr] at hrest
      exact Or.inl hrest
    · rw [show s.advance ⟨m, symbols⟩ = s.advance ⟨l, symbols⟩ from hab]
      exact ih.map (s.current :: ·)

theorem consumeSeparator_raised (raised : l.RaisedTo m) (s : Stream) :
    (s.consumeSeparator ⟨l, symbols⟩).LimitHit ∨
      s.consumeSeparator ⟨m, symbols⟩ = s.consumeSeparator ⟨l, symbols⟩ := by
  have h := followsUntilHit_of_size_le symbols raised s.feed.size
  unfold Stream.consumeSeparator Advance.consumeSeparator
  split
  · exact Or.inr rfl
  · exact h.step (Nat.le_refl _)
  · exact h.skipToSeparator (Nat.le_refl _)

theorem readLines_raised (raised : l.RaisedTo m) (lines : Array Line) (s : Stream) :
    UnlessHit (s.readLines ⟨l, symbols⟩ lines) (s.readLines ⟨m, symbols⟩ lines) := by
  fun_induction Stream.readLines ⟨l, symbols⟩ lines s with
  | case1 lines s hs =>
    rw [Stream.readLines, dif_pos hs]
    exact .refl _
  | case2 lines s hs start r ih =>
    have hb : s.readLines ⟨m, symbols⟩ lines
        = ((closeBlock start (start.statement ⟨m, symbols⟩).2).consumeSeparator
            ⟨m, symbols⟩).readLines ⟨m, symbols⟩
          (addLine lines start (start.statement ⟨m, symbols⟩).1) := by
      rw [Stream.readLines, dif_neg hs]
    rw [hb]
    rcases statement_raised symbols raised start with hit | hr
    · exact Or.inl (((LimitHit.closeBlock hit start).consumeSeparator _).readLines _ _)
    · rw [hr]
      rcases consumeSeparator_raised symbols raised (closeBlock start r.2) with hit | hc
      · exact Or.inl (hit.readLines _ _)
      · rw [hc]
        exact ih

end Stream

/-- **Limits matter only when they are hit.** A source that reads under some limits without a
range error and without a string constant that is too long reads the same, with the same
diagnostics, under all limits nowhere below them. -/
theorem expandSource_raised (symbols : SymbolTable) (source : String) {l m : Limits}
    (length : l.maxStringLength ≤ m.maxStringLength) (argument : l.argumentLimit ≤ m.argumentLimit)
    (unhit : ∀ d ∈ (expandSource ⟨l, symbols⟩ source).diagnostics,
      d.cause ≠ .rangeError ∧ d.cause ≠ .stringTooLong) :
    expandSource ⟨m, symbols⟩ source = expandSource ⟨l, symbols⟩ source := by
  have raised : l.RaisedTo m := ⟨length, argument⟩
  have unhit : ∀ {s : Stream}, s.log = (expandSource ⟨l, symbols⟩ source).diagnostics →
      ¬ s.LimitHit := by
    intro s hlog hit
    obtain ⟨d, hd, hc⟩ := hit
    rw [hlog] at hd
    obtain ⟨hrange, hlong⟩ := unhit d hd
    unfold Cause.isLimit at hc
    split at hc
    · rename_i e
      exact hrange e
    · rename_i e
      exact hlong e
    · cases hc
  have hread := Stream.readLines_raised symbols raised #[]
    ((Stream.ofSource source).advance ⟨l, symbols⟩)
  have hread := hread.resolve_left (unhit rfl)
  rcases (Stream.followsUntilHit_of_size_le symbols raised _).step
    (Nat.le_refl (Stream.ofSource source).feed.size) with hit | hfirst
  · exact absurd (hit.readLines ⟨l, symbols⟩ #[]) (unhit rfl)
  · unfold expandSource
    rw [show (Stream.ofSource source).advance ⟨m, symbols⟩
      = (Stream.ofSource source).advance ⟨l, symbols⟩ from hfirst, hread]

/-- Greater limits change nothing about a source that reports something else. -/
theorem expandSource_raised_undefined :
    let l : Limits := { maxStringLength := 2, argumentLimit := 1 }
    let source := ".CONCAT(\"a\",\"b\") .LEFT(1,x y) .STRING(n+)\n"
    (l.maxStringLength ≤ ({} : Limits).maxStringLength) ∧
    (l.argumentLimit ≤ ({} : Limits).argumentLimit) ∧
    (∀ d ∈ (expandSource ⟨l, {}⟩ source).diagnostics,
      d.cause ≠ .rangeError ∧ d.cause ≠ .stringTooLong) ∧
    (expandSource ⟨{}, {}⟩ source).diagnostics.size = 1 := by
  intro l source
  have length : l.maxStringLength ≤ ({} : Limits).maxStringLength := by decide
  have argument : l.argumentLimit ≤ ({} : Limits).argumentLimit := by decide
  have unhit : ∀ d ∈ (expandSource ⟨l, {}⟩ source).diagnostics,
      d.cause ≠ .rangeError ∧ d.cause ≠ .stringTooLong := by
    decide +kernel
  refine ⟨length, argument, unhit, ?_⟩
  rw [expandSource_raised {} source length argument unhit]
  decide +kernel

end AsmExpand
