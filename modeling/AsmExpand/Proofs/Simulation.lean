import AsmExpand.Proofs.ParserLevels
import AsmExpand.Stream.Call

/-!
# Simulation

Two streams that show the same tokens, and go on showing the same tokens however
they are advanced, cannot be told apart by anything that reads them. A
simulation says when that is so: a relation between streams under which the
current tokens are the same up to a change of places, and which lasts when both
advance inside a line and when both report.

From that, each way of reading carries the relation along and gives the same
answer on both sides: skipping, consuming, collecting a list, reading an
expression or an argument, resolving a call (`Simulation.resolve`). What the
last step of a call does, putting a constant in place of a token or a window in
front of the feed, is up to the relation (`Simulation.expand`).
-/

namespace AsmExpand

/-- Whether a cause lies in the tokens of a line, as all do that readers report. A
malformed source is found by the scanner, and at the end of the input. -/
def Cause.inLine : Cause → Bool
  | malformed _ => false
  | _ => true

/-- Related streams show the same tokens and are related again one step on. -/
structure Simulation (f : Span → Span) (a b : Advance) (R : Stream → Stream → Prop) :
    Prop where
  current : ∀ {s t}, R s t → t.current = s.current.mapSpan f
  step : ∀ {s t}, R s t → s.kind.isSeparator = false → R (a s) (b t)
  report : ∀ {s t}, R s t → ∀ span cause, cause.inLine = true →
    R (s.reportAt span cause) (t.reportAt (f span) cause)

namespace Simulation

variable {f : Span → Span} {a b : Advance} {R : Stream → Stream → Prop} {s t : Stream}

theorem kind (sim : Simulation f a b R) (h : R s t) : t.kind = s.kind := by
  rw [Stream.kind, sim.current h]
  rfl

theorem span (sim : Simulation f a b R) (h : R s t) : t.current.span = f s.current.span := by
  rw [sim.current h]
  rfl

theorem text (sim : Simulation f a b R) (h : R s t) : t.current.text = s.current.text := by
  rw [sim.current h]
  rfl

theorem int? (sim : Simulation f a b R) (h : R s t) : t.current.int? = s.current.int? := by
  rw [sim.current h]
  rfl

theorem reportHere (sim : Simulation f a b R) (h : R s t) (cause : Cause)
    (hc : cause.inLine = true := by rfl) : R (s.report cause) (t.report cause) := by
  have := sim.report h s.current.span cause hc
  rwa [← sim.span h] at this

theorem step_of_kind (sim : Simulation f a b R) (h : R s t) {k : Kind} (hk : s.kind = k)
    (hne : k.isSeparator = false := by rfl) : R (a s) (b t) :=
  sim.step h (by rwa [hk])

/-! ## Skipping and consuming -/

theorem skipToSeparator (sim : Simulation f a b R) (h : R s t) :
    R (a.skipToSeparator s) (b.skipToSeparator t) := by
  fun_induction Advance.skipToSeparator a s generalizing t with
  | case1 s hs =>
    rw [Advance.skipToSeparator, dif_pos (by rwa [sim.kind h])]
    exact h
  | case2 s hs ih =>
    have e : b.skipToSeparator t = b.skipToSeparator (b t) := by
      rw [Advance.skipToSeparator, dif_neg (by rwa [sim.kind h])]
    rw [e]
    exact ih (sim.step h (by simpa using hs))

theorem consume (sim : Simulation f a b R) (h : R s t) (expected : Kind) (absent : Cause)
    (hne : expected.isSeparator = false := by rfl) (hc : absent.inLine = true := by rfl) :
    (b.consume expected absent t).1 = (a.consume expected absent s).1 ∧
      R (a.consume expected absent s).2 (b.consume expected absent t).2 := by
  unfold Advance.consume
  rw [sim.kind h]
  split
  · rename_i hk
    exact ⟨rfl, sim.step_of_kind h hk hne⟩
  · exact ⟨rfl, sim.reportHere h absent hc⟩

theorem collect (sim : Simulation f a b R) (h : R s t) (depth : Nat) :
    (b.collect depth t).1 = (a.collect depth s).1.map (Token.mapSpan f) ∧
      R (a.collect depth s).2 (b.collect depth t).2 := by
  fun_induction Advance.collect a depth s generalizing t with
  | case1 depth s hs =>
    rw [Advance.collect, dif_pos (by rwa [sim.kind h])]
    exact ⟨rfl, sim.reportHere h _⟩
  | case2 depth s hs hr =>
    rw [Advance.collect, dif_neg (by rwa [sim.kind h]), if_pos (by rwa [sim.kind h])]
    exact ⟨rfl, sim.step_of_kind h hr.1⟩
  | case3 depth s hs hr ts s' hc ih =>
    rw [Advance.collect, dif_neg (by rwa [sim.kind h]), if_neg (by rwa [sim.kind h]), sim.kind h]
    have := ih (sim.step h (by simpa using hs))
    rw [hc] at this
    exact ⟨by simp [this.1, sim.current h], this.2⟩

/-! ## Expressions -/

/-- Both sides read the same tree and stop at related streams. -/
def Same (f : Span → Span) (R : Stream → Stream → Prop) (p q : Expr × Stream) : Prop :=
  q.1 = p.1.mapSpan f ∧ R p.2 q.2

theorem levels (sim : Simulation f a b R) :
    (∀ s, ∀ t, R s t → Same f R (a.expression s).read (b.expression t).read) ∧
    (∀ rank s, ∀ t, R s t → Same f R (a.binary rank s).read (b.binary rank t).read) ∧
    (∀ rank left s, ∀ t, R s t →
      Same f R (a.chain rank left s).read (b.chain rank (left.mapSpan f) t).read) ∧
    (∀ s, ∀ t, R s t → Same f R (a.power s).read (b.power t).read) ∧
    (∀ s, ∀ t, R s t → Same f R (a.unary s).read (b.unary t).read) ∧
    (∀ s, ∀ t, R s t → Same f R (a.primary s).read (b.primary t).read) := by
  apply Advance.levels_induct a
  case byteOf =>
    intro s op hop ih t h
    rw [a.expression_read, b.expression_read, sim.kind h]
    simp only [hop]
    obtain ⟨he, hr⟩ := ih _ (sim.step h (Kind.not_isSeparator_of_byteOf? hop))
    exact ⟨by simp [he, Expr.mapSpan, sim.span h], hr⟩
  case conditional =>
    intro s hop ihc ih t h
    rw [a.expression_read, b.expression_read, sim.kind h]
    simp only [hop]
    obtain ⟨he₁, hr₁⟩ := ihc t h
    have ih := ih _ rfl
    generalize (a.binary Advance.loosest s).read = cond at *
    generalize (b.binary Advance.loosest t).read = cond' at *
    by_cases hq : cond.2.kind = .question
    · obtain ⟨ihy, ihn⟩ := ih hq
      obtain ⟨he₂, hr₂⟩ := ihy _ (sim.step_of_kind hr₁ hq)
      have ihn := ihn _ rfl
      simp only [sim.kind hr₁, hq, if_true]
      generalize (a.expression (a cond.2)).read = yes at *
      generalize (b.expression (b cond'.2)).read = yes' at *
      by_cases hk : yes.2.kind = .colon
      · obtain ⟨he₃, hr₃⟩ := ihn hk _ (sim.step_of_kind hr₂ hk)
        simp only [sim.kind hr₂, hk, if_true]
        exact ⟨by simp [he₁, he₂, he₃, Expr.mapSpan, sim.span hr₁], hr₃⟩
      · simp only [sim.kind hr₂, hk, if_false]
        exact ⟨by simp [Expr.mapSpan, sim.span hr₂], hr₂⟩
    · simp only [sim.kind hr₁, hq, if_false]
      exact ⟨he₁, hr₁⟩
  case tightest =>
    intro s ih t h
    rw [a.binary_zero_read, b.binary_zero_read]
    exact ih t h
  case level =>
    intro rank s ihl ihb t h
    rw [a.binary_succ_read, b.binary_succ_read]
    obtain ⟨he, hr⟩ := ihl t h
    have := ihb _ rfl _ hr
    rwa [← he] at this
  case last =>
    intro rank left s hop t h
    rw [a.chain_read, b.chain_read, sim.kind h]
    simp only [hop]
    exact ⟨rfl, h⟩
  case link =>
    intro rank left s op hop ihr ihb t h
    rw [a.chain_read, b.chain_read, sim.kind h]
    simp only [hop]
    obtain ⟨he, hr⟩ := ihr _ (sim.step h (Kind.not_isSeparator_of_binaryAt? hop))
    have := ihb _ rfl _ hr
    simp only [Expr.mapSpan] at this
    rwa [← he, ← sim.span h] at this
  case raised =>
    intro s ihb ihp t h
    rw [a.power_read, b.power_read]
    obtain ⟨he, hr⟩ := ihb t h
    have ihp := ihp _ rfl
    generalize (a.unary s).read = base at *
    generalize (b.unary t).read = base' at *
    by_cases hp : base.2.kind = .operator .power
    · obtain ⟨he₂, hr₂⟩ := ihp hp _ (sim.step_of_kind hr hp)
      simp only [sim.kind hr, hp, if_true]
      exact ⟨by simp [he, he₂, Expr.mapSpan, sim.span hr], hr₂⟩
    · simp only [sim.kind hr, hp, if_false]
      exact ⟨he, hr⟩
  case signed =>
    intro s op hop ih t h
    rw [a.unary_read, b.unary_read, sim.kind h]
    simp only [hop]
    obtain ⟨he, hr⟩ := ih _ (sim.step h (Kind.not_isSeparator_of_unary? hop))
    exact ⟨by simp [he, Expr.mapSpan, sim.span h], hr⟩
  case bare =>
    intro s hop ih t h
    rw [a.unary_read, b.unary_read, sim.kind h]
    simp only [hop]
    exact ih t h
  case parens =>
    intro s ih t h
    rw [a.primary_read, b.primary_read, sim.kind h]
    split
    · rename_i hk
      exact ⟨by simp [Expr.mapSpan, sim.span h, sim.int? h], sim.step_of_kind h hk⟩
    · rename_i hk
      exact ⟨by simp [Expr.mapSpan, sim.span h, sim.text h], sim.step_of_kind h hk⟩
    · rename_i hk
      exact ⟨by simp [Expr.mapSpan, sim.span h, sim.text h], sim.step_of_kind h hk⟩
    · rename_i hk
      obtain ⟨he, hr⟩ := ih hk _ (sim.step_of_kind h hk)
      simp only [sim.kind hr]
      split
      · rename_i hp
        exact ⟨he, sim.step_of_kind hr hp⟩
      · exact ⟨by simp [Expr.mapSpan, sim.span hr], hr⟩
    · split
      · exact ⟨by simp [Expr.mapSpan, sim.span h], h⟩
      · exact ⟨by simp [Expr.mapSpan, sim.span h], h⟩

theorem constant (sim : Simulation f a b R) (h : R s t) (symbols : SymbolTable) :
    (b.constant symbols t).1 = (a.constant symbols s).1 ∧
      R (a.constant symbols s).2 (b.constant symbols t).2 := by
  obtain ⟨he, hr⟩ := sim.levels.1 s t h
  unfold Advance.constant
  generalize a.expression s = p at *
  generalize b.expression t = q at *
  obtain ⟨e, s₁, hs⟩ := p
  obtain ⟨e', t₁, ht⟩ := q
  simp only [Parsed.read] at he hr
  subst he
  simp only [Expr.eval_mapSpan]
  cases e.eval symbols with
  | ok v => exact ⟨rfl, hr⟩
  | error fault => exact ⟨rfl, sim.report hr _ _ rfl⟩

/-! ## Calls -/

theorem rangeArgument (sim : Simulation f a b R) (h : R s t) (settings : Settings)
    (fallback : Nat) :
    (b.rangeArgument settings fallback t).1 = (a.rangeArgument settings fallback s).1 ∧
      R (a.rangeArgument settings fallback s).2 (b.rangeArgument settings fallback t).2 := by
  obtain ⟨hv, hr⟩ := sim.constant h settings.symbols
  unfold Advance.rangeArgument
  simp only [hv]
  split
  · exact ⟨rfl, hr⟩
  · exact ⟨rfl, by
      rw [sim.span h]
      exact sim.report hr _ _ rfl⟩

theorem abandon (sim : Simulation f a b R) (h : R s t) (cause : Cause)
    (hc : cause.inLine = true := by rfl) :
    (b.abandon cause t).1 = (a.abandon cause s).1.mapSpan f ∧
      R (a.abandon cause s).2 (b.abandon cause t).2 :=
  ⟨rfl, sim.skipToSeparator (sim.reportHere h cause hc)⟩

theorem literalAtParen (sim : Simulation f a b R) (h : R s t) (value : String) :
    (Advance.literalAtParen value t).1 = (Advance.literalAtParen value s).1.mapSpan f ∧
      R (Advance.literalAtParen value s).2 (Advance.literalAtParen value t).2 := by
  unfold Advance.literalAtParen
  rw [sim.kind h]
  split
  · exact ⟨rfl, h⟩
  · exact ⟨rfl, sim.reportHere h _⟩

theorem join (sim : Simulation f a b R) (h : R s t) (settings : Settings) (value : String) :
    (b.join settings value t).1 = (a.join settings value s).1.mapSpan f ∧
      R (a.join settings value s).2 (b.join settings value t).2 := by
  fun_induction Advance.join a settings value s generalizing t with
  | case1 value s hk =>
    rw [Advance.join, dif_pos (by rwa [sim.kind h])]
    exact sim.abandon h _
  | case2 value s hk hl =>
    rw [Advance.join, dif_neg (by rwa [sim.kind h]), if_pos (by rwa [sim.text h])]
    exact sim.abandon h _
  | case3 value s hk hl s₁ hc =>
    rename_i ih
    have h₁ := sim.step_of_kind h (Decidable.not_not.1 hk)
    rw [Advance.join, dif_neg (by rwa [sim.kind h]), if_neg (by rwa [sim.text h]), sim.text h]
    simp only [sim.kind h₁]
    rw [if_pos hc]
    exact ih (sim.step_of_kind h₁ hc)
  | case4 value s hk hl s₁ =>
    rename_i hc
    have h₁ := sim.step_of_kind h (Decidable.not_not.1 hk)
    rw [Advance.join, dif_neg (by rwa [sim.kind h]), if_neg (by rwa [sim.text h]), sim.text h]
    simp only [sim.kind h₁]
    rw [if_neg hc]
    exact sim.literalAtParen h₁ _

theorem stringArgument (sim : Simulation f a b R) (h : R s t) (settings : Settings) :
    (b.stringArgument settings t).1 = (a.stringArgument settings s).1 ∧
      R (a.stringArgument settings s).2 (b.stringArgument settings t).2 := by
  obtain ⟨hv, hr⟩ := sim.constant h settings.symbols
  unfold Advance.stringArgument
  rw [sim.kind h]
  split
  · rename_i hk
    exact ⟨sim.text h, sim.step_of_kind h hk⟩
  · exact ⟨by simp only [hv], hr⟩

theorem resolve (sim : Simulation f a b R) (h : R s t) (settings : Settings) (fn : TokenFunction) :
    (b.resolve settings fn t).1 = (a.resolve settings fn s).1.mapSpan f ∧
      R (a.resolve settings fn s).2 (b.resolve settings fn t).2 := by
  cases fn with
  | concat => exact sim.join h settings ""
  | left =>
    obtain ⟨hc, h⟩ := sim.rangeArgument h settings 1
    obtain ⟨_, h⟩ := sim.consume h .comma .commaExpected
    obtain ⟨ht, h⟩ := sim.collect h 0
    refine ⟨?_, h⟩
    simp only [Advance.resolve, Advance.consumeComma, Outcome.mapSpan, hc, ht, Window.map_slice]
  | mid =>
    obtain ⟨hs, h⟩ := sim.rangeArgument h settings 0
    obtain ⟨_, h⟩ := sim.consume h .comma .commaExpected
    obtain ⟨hc, h⟩ := sim.rangeArgument h settings 1
    obtain ⟨_, h⟩ := sim.consume h .comma .commaExpected
    obtain ⟨ht, h⟩ := sim.collect h 0
    refine ⟨?_, h⟩
    simp only [Advance.resolve, Advance.consumeComma, Outcome.mapSpan, hs, hc, ht, Window.map_slice]
  | right =>
    obtain ⟨hc, h⟩ := sim.rangeArgument h settings 1
    obtain ⟨_, h⟩ := sim.consume h .comma .commaExpected
    obtain ⟨ht, h⟩ := sim.collect h 0
    refine ⟨?_, h⟩
    simp only [Advance.resolve, Advance.consumeComma, Outcome.mapSpan, hc, ht, Window.map_last]
  | string =>
    obtain ⟨hv, h⟩ := sim.stringArgument h settings
    simp only [Advance.resolve, hv]
    split
    · exact sim.abandon h _
    · exact sim.literalAtParen h _

end Simulation

/-! ## What reading keeps -/

/-- A property of streams that lasts while a stream is read: when it advances
inside a line, and when it reports. -/
structure Invariant (a : Advance) (P : Stream → Prop) : Prop where
  step : ∀ {s}, P s → s.kind.isSeparator = false → P (a s)
  report : ∀ {s}, P s → ∀ span cause, cause.inLine = true → P (s.reportAt span cause)

namespace Invariant

variable {a : Advance} {P : Stream → Prop} {s : Stream}

/-- A stream under an invariant simulates itself. -/
theorem simulation (inv : Invariant a P) : Simulation id a a (fun s t => s = t ∧ P s) where
  current := by
    intro s t h
    rcases h with ⟨rfl, _⟩
    rfl
  step := by
    intro s t h hk
    rcases h with ⟨rfl, hs⟩
    exact ⟨rfl, inv.step hs hk⟩
  report := by
    intro s t h span cause hc
    rcases h with ⟨rfl, hs⟩
    exact ⟨rfl, inv.report hs span cause hc⟩

theorem skipToSeparator (inv : Invariant a P) (h : P s) : P (a.skipToSeparator s) :=
  (inv.simulation.skipToSeparator ⟨rfl, h⟩).2

theorem consume (inv : Invariant a P) (h : P s) (expected : Kind) (absent : Cause)
    (hne : expected.isSeparator = false := by rfl) (hc : absent.inLine = true := by rfl) :
    P (a.consume expected absent s).2 :=
  (inv.simulation.consume ⟨rfl, h⟩ expected absent hne hc).2.2

theorem collect (inv : Invariant a P) (h : P s) (depth : Nat) : P (a.collect depth s).2 :=
  (inv.simulation.collect ⟨rfl, h⟩ depth).2.2

theorem levels (inv : Invariant a P) :
    (∀ s, P s → P (a.expression s).read.2) ∧ (∀ rank s, P s → P (a.binary rank s).read.2) ∧
      (∀ rank left s, P s → P (a.chain rank left s).read.2) ∧ (∀ s, P s → P (a.power s).read.2) ∧
      (∀ s, P s → P (a.unary s).read.2) ∧ ∀ s, P s → P (a.primary s).read.2 := by
  obtain ⟨whole, upTo, behind, powers, operand, atom⟩ := inv.simulation.levels
  exact ⟨fun s h => (whole s s ⟨rfl, h⟩).2.2, fun rank s h => (upTo rank s s ⟨rfl, h⟩).2.2,
    fun rank left s h => (behind rank left s s ⟨rfl, h⟩).2.2,
    fun s h => (powers s s ⟨rfl, h⟩).2.2, fun s h => (operand s s ⟨rfl, h⟩).2.2,
    fun s h => (atom s s ⟨rfl, h⟩).2.2⟩

theorem constant (inv : Invariant a P) (h : P s) (symbols : SymbolTable) :
    P (a.constant symbols s).2 :=
  (inv.simulation.constant ⟨rfl, h⟩ symbols).2.2

theorem rangeArgument (inv : Invariant a P) (h : P s) (settings : Settings) (fallback : Nat) :
    P (a.rangeArgument settings fallback s).2 :=
  (inv.simulation.rangeArgument ⟨rfl, h⟩ settings fallback).2.2

theorem join (inv : Invariant a P) (h : P s) (settings : Settings) (value : String) :
    P (a.join settings value s).2 :=
  (inv.simulation.join ⟨rfl, h⟩ settings value).2.2

theorem stringArgument (inv : Invariant a P) (h : P s) (settings : Settings) :
    P (a.stringArgument settings s).2 :=
  (inv.simulation.stringArgument ⟨rfl, h⟩ settings).2.2

theorem resolve (inv : Invariant a P) (h : P s) (settings : Settings) (fn : TokenFunction) :
    P (a.resolve settings fn s).2 :=
  (inv.simulation.resolve ⟨rfl, h⟩ settings fn).2.2

/-- A collected token was the current one when it was collected. -/
theorem mem_collect (inv : Invariant a P) (h : P s) (depth : Nat) {x : Token}
    (hx : x ∈ (a.collect depth s).1) :
    ∃ u, P u ∧ u.current = x ∧ u.kind.isSeparator = false := by
  fun_induction Advance.collect a depth s with
  | case1 => simp at hx
  | case2 => simp at hx
  | case3 depth s hs hr ts s' hc ih =>
    have hk : s.kind.isSeparator = false := by simpa using hs
    rw [hc] at ih
    rcases List.mem_cons.mp hx with rfl | hx
    · exact ⟨s, h, rfl, hk⟩
    · exact ih (inv.step h hk) hx

/-- A token of a window was the current one when it was collected. -/
theorem mem_resolve (inv : Invariant a P) (h : P s) (settings : Settings) (fn : TokenFunction)
    {ts : List Token} (ho : (a.resolve settings fn s).1 = .window ts) {x : Token} (hx : x ∈ ts) :
    ∃ u, P u ∧ u.current = x ∧ u.kind.isSeparator = false := by
  cases fn with
  | concat =>
    exact absurd ho (a.join_ne_window settings "" s ts)
  | left =>
    have h := inv.rangeArgument h settings 1
    have h := inv.consume h .comma .commaExpected
    simp only [Advance.resolve, Advance.consumeComma, Outcome.window.injEq] at ho
    subst ho
    exact inv.mem_collect h 0 ((Window.slice_sublist _ _ _).subset hx)
  | mid =>
    have h := inv.rangeArgument h settings 0
    have h := inv.consume h .comma .commaExpected
    have h := inv.rangeArgument h settings 1
    have h := inv.consume h .comma .commaExpected
    simp only [Advance.resolve, Advance.consumeComma, Outcome.window.injEq] at ho
    subst ho
    exact inv.mem_collect h 0 ((Window.slice_sublist _ _ _).subset hx)
  | right =>
    have h := inv.rangeArgument h settings 1
    have h := inv.consume h .comma .commaExpected
    simp only [Advance.resolve, Advance.consumeComma, Outcome.window.injEq] at ho
    subst ho
    exact inv.mem_collect h 0 ((Window.last_sublist _ _).subset hx)
  | string =>
    simp only [Advance.resolve] at ho
    split at ho
    · simp [Advance.abandon] at ho
    · exact absurd ho (Advance.literalAtParen_ne_window _ _ ts)

end Invariant

namespace Simulation

variable {f : Span → Span} {a b : Advance} {R : Stream → Stream → Prop} {s t : Stream}

/-- To have a partner is kept by reading. -/
theorem invariant (sim : Simulation f a b R) : Invariant a (fun s => ∃ t, R s t) where
  step := by
    intro s h hk
    obtain ⟨t, h⟩ := h
    exact ⟨b t, sim.step h hk⟩
  report := by
    intro s h span cause hc
    obtain ⟨t, h⟩ := h
    exact ⟨_, sim.report h span cause hc⟩

/-- **A call goes the same way on both sides**, if the relation bears the last
step of a call: a constant within the limit in place of the current token, or a window that was
paid for and read under the relation, and the current token, in front of the feed. -/
theorem expand (sim : Simulation f a b R) {Q : Stream → Stream → Prop} (settings : Settings)
    (fn : TokenFunction) (h : R (a s) (b t))
    (literal : ∀ {s t}, R s t → s.kind = .rightParen → ∀ value : String,
      value.utf8ByteSize ≤ settings.limits.maxStringLength →
      Q { s with current := .ofText value s.current.span }
        { t with current := .ofText value t.current.span })
    (window : ∀ {s' t'}, R s' t' → ∀ ts, liveCount ts + s'.load ≤ s.feed.size →
      (∀ x ∈ ts, ∃ u, (∃ v, R u v) ∧ u.current = x ∧ u.kind.isSeparator = false) →
      Q (a (s'.push (ts ++ [s'.current])))
        (b (t'.push (ts.map (Token.mapSpan f) ++ [t'.current]))))
    (abandoned : ∀ {s t}, R s t → Q s t) :
    Q (a.expand settings fn s) (b.expand settings fn t) := by
  obtain ⟨_, h⟩ := sim.consume h .leftParen .leftParenExpected
  have hm := @Invariant.mem_resolve a _ _ sim.invariant ⟨_, h⟩ settings fn
  obtain ⟨ho, hr⟩ := sim.resolve h settings fn
  -- what the call has read, its window included, came out of the feed
  have hp := a.load_resolve_le settings fn (a.consume .leftParen .leftParenExpected (a s)).2
  have hs := Nat.le_trans (a.load_consume_le .leftParen .leftParenExpected (a s)) (a.pays s)
  have hk := @Advance.kind_of_resolve a settings fn
  have hsize := @Advance.utf8ByteSize_of_resolve a settings fn
  unfold Advance.expand Advance.consumeLeftParen
  simp only
  generalize ha : a.resolve settings fn
    (a.consume .leftParen .leftParenExpected (a s)).2 = p at *
  generalize hb : b.resolve settings fn
    (b.consume .leftParen .leftParenExpected (b t)).2 = q at *
  obtain ⟨o, s₁⟩ := p
  obtain ⟨o', t₁⟩ := q
  simp only at ho hr
  subst ho
  cases o with
  | literal value => exact literal hr (hk ha) value (hsize ha)
  | window ts => exact window hr ts (Nat.le_trans hp hs) fun x hx => hm rfl hx
  | abandoned => exact abandoned hr

end Simulation

end AsmExpand
