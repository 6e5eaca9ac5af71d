import AsmExpand.Proofs.Grammar
import AsmExpand.Proofs.StringLimit

/-!
# Expressions without a value

What does not fit the grammar is not reported where it is found. It becomes a part of the
tree, and comes to light when that part is evaluated. So whether a fault is noticed is a matter
of which parts the value of a tree asks for (`Expr.Asks`): all of them but the branch that a
conditional does not choose.

`Expr.Faulty` says of one part what is wrong with it. A tree has a value just when none of the
parts it asks for is faulty, and otherwise the fault is that of such a part; both are inductions
on the tree. That is all there is to a tree with no conditional in it: it asks for every part.
In other trees a fault in a branch can stay unnoticed.

On the other side, `Advance.Consumed` says what the parser has read when it stops, whatever the
tree: tokens of the line, up to one that does not go on with the expression. Since it stops
there whether it found an error or not, the tokens it consumed are an expression exactly if
the tree is one (`Advance.complete_iff`).
-/

namespace AsmExpand

namespace Expr

/-- `Asks symbols e p`: the value of `e` depends on that of its part `p`. -/
inductive Asks (symbols : SymbolTable) : Expr → Expr → Prop where
  | here (e : Expr) : Asks symbols e e
  | operand {op : UnaryOp} {e p : Expr} {span : Span} :
      Asks symbols e p → Asks symbols (.unary op e span) p
  | left {op : BinaryOp} {l r p : Expr} {span : Span} :
      Asks symbols l p → Asks symbols (.binary op l r span) p
  | right {op : BinaryOp} {l r p : Expr} {span : Span} :
      Asks symbols r p → Asks symbols (.binary op l r span) p
  | condition {c y n p : Expr} {span : Span} :
      Asks symbols c p → Asks symbols (.conditional c y n span) p
  | yes {c y n p : Expr} {span : Span} {v : Int64} : c.eval symbols = .ok v → v ≠ 0 →
      Asks symbols y p → Asks symbols (.conditional c y n span) p
  | no {c y n p : Expr} {span : Span} : c.eval symbols = .ok 0 →
      Asks symbols n p → Asks symbols (.conditional c y n span) p

/-- `Faulty symbols p f`: by itself, the part `p` of an expression has the fault `f`. -/
inductive Faulty (symbols : SymbolTable) : Expr → EvalError → Prop where
  | malformed (fault : ExprFault) (span : Span) : Faulty symbols (.error fault span) ⟨fault, span⟩
  | undefined {name : String} {span : Span} : symbols.find? name = none →
      Faulty symbols (.symbol name span) ⟨.undefinedSymbol name, span⟩
  | longString {value : String} {span : Span} :
      (Utf8.bytes value).length ≠ 1 → (Utf8.bytes value).length ≠ 2 →
      Faulty symbols (.text value span) ⟨.longString, span⟩
  | division {l r : Expr} {span : Span} : r.eval symbols = .ok 0 →
      Faulty symbols (.binary .divide l r span) ⟨.divisionByZero, span⟩
  | modulo {l r : Expr} {span : Span} : r.eval symbols = .ok 0 →
      Faulty symbols (.binary .modulo l r span) ⟨.moduloByZero, span⟩

/-- Whether a part of a tree is a conditional. -/
def hasConditional : Expr → Bool
  | .number .. | .symbol .. | .text .. | .error .. => false
  | .unary _ e _ => e.hasConditional
  | .binary _ l r _ => l.hasConditional || r.hasConditional
  | .conditional .. => true

variable {symbols : SymbolTable} {e p : Expr} {f : EvalError}

theorem textValue?_eq_none {bytes : List Byte} :
    textValue? bytes = none ↔ bytes.length ≠ 1 ∧ bytes.length ≠ 2 := by
  match bytes with
  | [] => simp [textValue?]
  | [_] => simp [textValue?]
  | [_, _] => simp [textValue?]
  | _ :: _ :: _ :: _ => simp [textValue?]

/-- Of the operators, only a quotient by zero has a fault. -/
theorem faulty_of_apply {op : BinaryOp} {l r : Expr} {v w : Int64} {span : Span}
    (hr : r.eval symbols = .ok w) (h : op.apply v w span = .error f) :
    Faulty symbols (.binary op l r span) f := by
  cases op with
  | divide =>
    rw [BinaryOp.apply] at h
    split at h
    · rename_i hw
      obtain rfl := Except.error.inj h
      exact .division (hw ▸ hr)
    · cases h
  | modulo =>
    rw [BinaryOp.apply] at h
    split at h
    · rename_i hw
      obtain rfl := Except.error.inj h
      exact .modulo (hw ▸ hr)
    · cases h
  | _ => cases h

/-- **A tree without a value asks for a part that has its fault.** -/
theorem exists_faulty_of_eval (h : e.eval symbols = .error f) :
    ∃ p, e.Asks symbols p ∧ p.Faulty symbols f := by
  induction e with
  | number value span => cases h
  | symbol name span =>
    rw [eval] at h
    split at h
    · cases h
    · rename_i hn
      obtain rfl := Except.error.inj h
      exact ⟨_, .here _, .undefined hn⟩
  | text value span =>
    rw [eval] at h
    split at h
    · cases h
    · rename_i hn
      obtain rfl := Except.error.inj h
      obtain ⟨hone, htwo⟩ := textValue?_eq_none.mp hn
      exact ⟨_, .here _, .longString hone htwo⟩
  | unary op operand span ih =>
    rw [eval] at h
    split at h
    · cases h
    · rename_i g hg
      obtain rfl := Except.error.inj h
      obtain ⟨p, hp, hf⟩ := ih hg
      exact ⟨p, .operand hp, hf⟩
  | binary op l r span ihl ihr =>
    rw [eval] at h
    split at h
    · rename_i g hg
      obtain rfl := Except.error.inj h
      obtain ⟨p, hp, hf⟩ := ihl hg
      exact ⟨p, .left hp, hf⟩
    · split at h
      · rename_i g hg
        obtain rfl := Except.error.inj h
        obtain ⟨p, hp, hf⟩ := ihr hg
        exact ⟨p, .right hp, hf⟩
      · rename_i hr
        exact ⟨_, .here _, faulty_of_apply hr h⟩
  | conditional c y n span ihc ihy ihn =>
    rw [eval] at h
    split at h
    · rename_i g hg
      obtain rfl := Except.error.inj h
      obtain ⟨p, hp, hf⟩ := ihc hg
      exact ⟨p, .condition hp, hf⟩
    · rename_i v hc
      split at h
      · rename_i hv
        obtain ⟨p, hp, hf⟩ := ihy h
        exact ⟨p, .yes hc hv hp, hf⟩
      · rename_i hv
        obtain rfl := not_not.mp hv
        obtain ⟨p, hp, hf⟩ := ihn h
        exact ⟨p, .no hc hp, hf⟩
  | error fault span =>
    obtain rfl := Except.error.inj h
    exact ⟨_, .here _, .malformed fault span⟩

/-- A faulty part has no value. -/
theorem Faulty.eval (h : p.Faulty symbols f) (v : Int64) : p.eval symbols ≠ .ok v := by
  cases h with
  | malformed => simp [Expr.eval]
  | undefined hn => simp [Expr.eval, hn]
  | longString hone htwo => simp [Expr.eval, textValue?_eq_none.mpr ⟨hone, htwo⟩]
  | division hr | modulo hr =>
    rename_i l _ _
    rw [Expr.eval, hr]
    cases l.eval symbols with
    | error g => simp
    | ok w => simp [BinaryOp.apply]

/-- Both operands are evaluated. -/
theorem eval_operands {op : BinaryOp} {l r : Expr} {span : Span} {v : Int64}
    (h : (Expr.binary op l r span).eval symbols = .ok v) :
    (∃ w, l.eval symbols = .ok w) ∧ ∃ w, r.eval symbols = .ok w := by
  rw [Expr.eval] at h
  split at h
  · cases h
  · rename_i w hl
    split at h
    · cases h
    · rename_i w' hr
      exact ⟨⟨w, hl⟩, w', hr⟩

/-- A tree with a value has a value for every part it asks for. -/
theorem Asks.eval (h : e.Asks symbols p) {v : Int64} (hv : e.eval symbols = .ok v) :
    ∃ w, p.eval symbols = .ok w := by
  induction h generalizing v with
  | here => exact ⟨v, hv⟩
  | operand _ ih =>
    rw [Expr.eval] at hv
    split at hv
    · rename_i w hw
      exact ih hw
    · cases hv
  | left _ ih =>
    obtain ⟨w, hw⟩ := (eval_operands hv).1
    exact ih hw
  | right _ ih =>
    obtain ⟨w, hw⟩ := (eval_operands hv).2
    exact ih hw
  | condition _ ih =>
    rw [Expr.eval] at hv
    split at hv
    · cases hv
    · rename_i w hw
      exact ih hw
  | yes hc hne _ ih =>
    rw [Expr.eval, hc] at hv
    exact ih ((if_pos hne).symm.trans hv)
  | no hc _ ih =>
    rw [Expr.eval, hc] at hv
    exact ih ((if_neg (not_not.mpr rfl)).symm.trans hv)

/-- **A tree has a value if no part that it asks for is faulty, and only then.** -/
theorem eval_ok_iff :
    (∃ v, e.eval symbols = .ok v) ↔ ∀ p f, e.Asks symbols p → ¬p.Faulty symbols f := by
  constructor
  · rintro ⟨v, hv⟩ p f hp hf
    obtain ⟨w, hw⟩ := hp.eval hv
    exact hf.eval w hw
  · intro h
    cases hv : e.eval symbols with
    | ok v => exact ⟨v, rfl⟩
    | error f =>
      obtain ⟨p, hp, hf⟩ := exists_faulty_of_eval hv
      exact absurd hf (h p f hp)

/-- A tree without a conditional asks for what is no expression in it. -/
theorem asks_error (hc : e.hasConditional = false) (he : e.hasError = true) :
    ∃ fault span, e.Asks symbols (.error fault span) := by
  induction e with
  | number | symbol | text => cases he
  | unary op operand span ih =>
    obtain ⟨fault, place, h⟩ := ih hc he
    exact ⟨fault, place, .operand h⟩
  | binary op l r span ihl ihr =>
    obtain ⟨hcl, hcr⟩ := Bool.or_eq_false_iff.mp hc
    rcases Bool.or_eq_true_iff.mp he with he | he
    · obtain ⟨fault, place, h⟩ := ihl hcl he
      exact ⟨fault, place, .left h⟩
    · obtain ⟨fault, place, h⟩ := ihr hcr he
      exact ⟨fault, place, .right h⟩
  | conditional => cases hc
  | error fault span => exact ⟨fault, span, .here _⟩

end Expr

namespace Advance

open Grammar

/-! ## Where the parser stops -/

variable (a : Advance)

/-- On the way from `s` to `t` only tokens of the line are shown, and `p` holds if there is no
`?` among them. -/
def Passes (s t : Stream) (p : Prop) : Prop :=
  ∃ ts, a.Shows s ts t ∧ (∀ x ∈ ts, x.kind.isSeparator = false) ∧
    ((∀ x ∈ ts, x.kind ≠ .question) → p)

namespace Passes

variable {a} {s m t : Stream} {p q : Prop}

theorem here (s : Stream) (h : p) : a.Passes s s p := ⟨[], .here s, by simp, fun _ => h⟩

theorem step (hk : s.kind.isSeparator = false) (h : a.Passes (a s) t p) : a.Passes s t p := by
  obtain ⟨ts, hts, hline, hp⟩ := h
  exact ⟨_, .step hts, List.forall_mem_cons.mpr ⟨hk, hline⟩,
    fun hq => hp (List.forall_mem_cons.mp hq).2⟩

/-- Behind a `?` nothing is claimed any more. -/
theorem step_question (hk : s.kind = .question) (h : a.Passes (a s) t p) : a.Passes s t q := by
  obtain ⟨ts, hts, hline, _⟩ := h
  have hcur : s.current.kind.isSeparator = false := by
    rw [show s.current.kind = _ from hk]
    rfl
  exact ⟨_, .step hts, List.forall_mem_cons.mpr ⟨hcur, hline⟩,
    fun hq => absurd hk (List.forall_mem_cons.mp hq).1⟩

theorem trans (h : a.Passes s m p) (h' : a.Passes m t q) : a.Passes s t (p ∧ q) := by
  obtain ⟨ts, hts, hline, hp⟩ := h
  obtain ⟨us, hus, hline', hq⟩ := h'
  refine ⟨ts ++ us, Shows.append_iff.mpr ⟨m, hts, hus⟩,
    List.forall_mem_append.mpr ⟨hline, hline'⟩, fun h => ?_⟩
  obtain ⟨hl, hr⟩ := List.forall_mem_append.mp h
  exact ⟨hp hl, hq hr⟩

theorem mono (h : a.Passes s t p) (hpq : p → q) : a.Passes s t q := by
  obtain ⟨ts, hts, hline, hp⟩ := h
  exact ⟨ts, hts, hline, fun hq => hpq (hp hq)⟩

end Passes

/-- What a level has read at `s`, with or without an error: tokens of the line, up to one that
stops it. The tree has a conditional only if they have a `?`. -/
structure Consumed (level : Level) (s : Stream) (r : Expr × Stream) : Prop where
  stops : Stops level r.2.kind
  passes : a.Passes s r.2 (r.1.hasConditional = false)

/-- What a loop has read at `s` behind an operand. -/
def Looped (rank : Nat) (left : Expr) (s : Stream) (r : Expr × Stream) : Prop :=
  Stops (.upTo rank) s.kind → Stops (.upTo (rank + 1)) r.2.kind ∧
    a.Passes s r.2 (left.hasConditional = false → r.1.hasConditional = false)

theorem consumed_levels :
    (∀ s, a.Consumed .whole s (a.readAt .whole s)) ∧
    (∀ rank s, a.Consumed (.upTo rank) s (a.readAt (.upTo rank) s)) ∧
    (∀ rank left s, a.Looped rank left s (a.chain rank left s).read) ∧
    (∀ s, a.Consumed .power s (a.readAt .power s)) ∧
    (∀ s, a.Consumed .operand s (a.readAt .operand s)) ∧
    (∀ s, a.Consumed .atom s (a.readAt .atom s)) := by
  apply levels_induct a
  case byteOf =>
    intro s op hop ih
    rw [readAt, a.expression_read, hop]
    exact ⟨ih.stops, .step (Kind.not_isSeparator_of_byteOf? hop) ih.passes⟩
  case conditional =>
    intro s hop ihc ih
    rw [readAt, a.expression_read, hop]
    have ih := ih _ rfl
    dsimp only [readAt] at *
    generalize (a.binary loosest s).read = cond at *
    by_cases hq : cond.2.kind = .question
    · obtain ⟨ihy, ihn⟩ := ih hq
      have ihn := ihn _ rfl
      rw [if_pos hq]
      generalize (a.expression (a cond.2)).read = yes at *
      by_cases hk : yes.2.kind = .colon
      · have ihn := ihn hk
        rw [if_pos hk]
        have hline : yes.2.kind.isSeparator = false := by rw [hk]; rfl
        have hrest := ihy.passes.trans (.step hline ihn.passes)
        exact ⟨ihn.stops, (ihc.passes.trans (.step_question hq hrest)).mono And.right⟩
      · rw [if_neg hk]
        exact ⟨ihy.stops, (ihc.passes.trans (.step_question hq ihy.passes)).mono And.right⟩
    · rw [if_neg hq]
      exact ⟨goesOn_of_stops ihc.stops hq, ihc.passes⟩
  case tightest =>
    intro s ih
    rw [readAt, a.binary_zero_read]
    exact ⟨⟨ih.stops, fun r hr => absurd hr (Nat.not_lt_zero r)⟩, ih.passes⟩
  case level =>
    intro rank s ihl ihb
    rw [readAt, a.binary_succ_read]
    obtain ⟨hstop, hpass⟩ := ihb _ rfl ihl.stops
    exact ⟨hstop, (ihl.passes.trans hpass).mono fun h => h.2 h.1⟩
  case last =>
    intro rank left s hop hstop
    rw [a.chain_read, hop]
    refine ⟨⟨hstop.1, fun r hr => ?_⟩, .here s id⟩
    rcases Nat.lt_succ_iff_lt_or_eq.mp hr with hr | rfl
    · exact hstop.2 r hr
    · exact hop
  case link =>
    intro rank left s op hop ihr ihb hstop
    rw [a.chain_read, hop]
    obtain ⟨hstop, hpass⟩ := ihb _ rfl ihr.stops
    have hline := Kind.not_isSeparator_of_binaryAt? hop
    refine ⟨hstop, (Passes.step hline (ihr.passes.trans hpass)).mono ?_⟩
    rintro ⟨hr, h⟩ hl
    exact h (Bool.or_eq_false_iff.mpr ⟨hl, hr⟩)
  case raised =>
    intro s ihb ihp
    rw [readAt, a.power_read]
    have ihp := ihp _ rfl
    dsimp only [readAt] at *
    generalize (a.unary s).read = base at *
    by_cases hp : base.2.kind = .operator .power
    · have ihp := ihp hp
      rw [if_pos hp]
      have hline : base.2.kind.isSeparator = false := by rw [hp]; rfl
      exact ⟨ihp.stops,
        (ihb.passes.trans (.step hline ihp.passes)).mono Bool.or_eq_false_iff.mpr⟩
    · rw [if_neg hp]
      exact ⟨hp, ihb.passes⟩
  case signed =>
    intro s op hop ih
    rw [readAt, a.unary_read, hop]
    exact ⟨trivial, .step (Kind.not_isSeparator_of_unary? hop) ih.passes⟩
  case bare =>
    intro s hop ih
    rw [readAt, a.unary_read, hop]
    exact ⟨trivial, ih.passes⟩
  case parens =>
    intro s ih
    rw [readAt, a.primary_read]
    split
    · rename_i hk
      exact ⟨trivial, .step (by rw [hk]; rfl) (.here _ rfl)⟩
    · rename_i hk
      exact ⟨trivial, .step (by rw [hk]; rfl) (.here _ rfl)⟩
    · rename_i hk
      exact ⟨trivial, .step (by rw [hk]; rfl) (.here _ rfl)⟩
    · rename_i hk
      have ih := ih hk
      dsimp only [readAt] at *
      generalize (a.expression (a s)).read = r at *
      have hpass : a.Passes s r.2 _ := .step (by rw [hk]; rfl) ih.passes
      by_cases hp : r.2.kind = .rightParen
      · rw [if_pos hp]
        have hend : a.Passes r.2 (a r.2) True := .step (by rw [hp]; rfl) (.here _ trivial)
        exact ⟨trivial, (hpass.trans hend).mono And.left⟩
      · rw [if_neg hp]
        exact ⟨trivial, hpass.mono fun _ => rfl⟩
    · split
      · exact ⟨trivial, .here s rfl⟩
      · exact ⟨trivial, .here s rfl⟩

/-- **The tokens consumed are an expression exactly if the tree is one**: nothing that the
parser reads for a tree with an error has a derivation. -/
theorem complete_iff (s : Stream) :
    (∃ ts e, a.Shows s ts (a.expression s).read.2 ∧ Derives .whole ts e) ↔
      (a.expression s).read.1.hasError = false := by
  constructor
  · rintro ⟨ts, e, hts, hd⟩
    have hstop := (a.consumed_levels.1 s).stops
    rw [((a.expression_iff s _ e).mpr ⟨ts, hts, hd, hstop⟩).1]
    exact hd.hasError
  · intro h
    obtain ⟨ts, hts, hd, _⟩ := (a.expression_iff s _ _).mp ⟨rfl, h⟩
    exact ⟨ts, _, hts, hd⟩

/-- A value is that of the tree that was read. -/
theorem constant_eq (symbols : SymbolTable) (s : Stream) :
    a.constant symbols s =
      match (a.expression s).read.1.eval symbols with
      | .ok v => (v, (a.expression s).read.2)
      | .error f =>
        (0, (a.expression s).read.2.reportAt f.span (.expression f.fault.message)) := by
  unfold constant Parsed.read
  obtain ⟨e, t, h⟩ := a.expression s
  dsimp only
  cases e.eval symbols <;> rfl

/-- A value is given without a report, if no part that is asked for is faulty. Otherwise the
fault of such a part is reported, once, and the value is zero. -/
theorem constant_cases (symbols : SymbolTable) (s : Stream) :
    let r := (a.expression s).read
    (∃ v, r.1.eval symbols = .ok v ∧ (∀ p f, r.1.Asks symbols p → ¬p.Faulty symbols f) ∧
        a.constant symbols s = (v, r.2)) ∨
      ∃ p f, r.1.Asks symbols p ∧ p.Faulty symbols f ∧
        a.constant symbols s = (0, r.2.reportAt f.span (.expression f.fault.message)) := by
  intro r
  rw [a.constant_eq symbols s]
  cases hv : r.1.eval symbols with
  | ok v => exact Or.inl ⟨v, rfl, Expr.eval_ok_iff.mp ⟨v, hv⟩, rfl⟩
  | error f =>
    obtain ⟨p, hp, hf⟩ := Expr.exists_faulty_of_eval hv
    exact Or.inr ⟨p, f, hp, hf, rfl⟩

end Advance

namespace Stream

open Grammar

variable (settings : Settings)

/-- A way through the feed reports what the feed reports on it. -/
theorem log_of_shows {ts : List Token} {s t : Stream}
    (h : (Advance.raw settings).Shows s ts t) :
    let limit := settings.limits.maxStringLength
    ∃ ds, t.log = s.log ++ ds ∧
      Feed.reports limit s.feed.scan.items = ds ++ Feed.reports limit t.feed.scan.items := by
  intro limit
  induction h with
  | here s => exact ⟨#[], Array.append_empty.symm, Array.empty_append.symm⟩
  | @step s t ts h ih =>
    obtain ⟨us, hus, hrest⟩ := ih
    obtain ⟨ds, hlog⟩ := exists_log_fetch settings s
    have haccount := account_fetch settings s
    rw [account, account, hlog, Array.append_assoc, Array.append_right_inj] at haccount
    refine ⟨ds ++ us, ?_, ?_⟩
    · rw [hus, ← Array.append_assoc, ← hlog]
      rfl
    · rw [← haccount, Array.append_assoc, ← hrest]
      rfl

/-- Without faults in the scan only long strings are reported. -/
theorem cause_of_mem_reports {limit : Nat} {items : List Item} {d : Diagnostic}
    (hok : ∀ i ∈ items, i.isOk = true) (h : d ∈ Feed.reports limit items) :
    d.cause = .stringTooLong := by
  induction items with
  | nil => simp [Feed.reports] at h
  | cons i items ih =>
    obtain ⟨hi, hitems⟩ := List.forall_mem_cons.mp hok
    cases i with
    | error e => cases hi
    | ok t =>
      rw [Feed.reports, Array.mem_append] at h
      rcases h with h | h
      · unfold Feed.checkedLog at h
        split at h
        · simp only [Diagnostics.report, List.push_toArray, List.nil_append, List.mem_toArray,
            List.mem_singleton] at h
          rw [h]
        · simp at h
      · exact ih hitems h

/-- **What becomes of a malformed expression**, and of one without a value. The tokens consumed
are an expression if the tree has no error in it, and that is their only tree then; on the way
the feed reports strings that are too long, and the parser nothing. The expression has its
value, and nothing else is reported, if no part is faulty that its value asks for. Otherwise
one such fault is reported and the value is zero. So an error in the tree goes unnoticed just
if every conditional around it leaves it out; without a `?` among the tokens none does. -/
theorem constant_notices (settings : Settings) (symbols : SymbolTable) (s : Stream)
    (hp : ∀ x ∈ s.ahead settings, s.isRaw = true ∨ x.kind.function? = none)
    (hok : ∀ i ∈ s.feed.scan.items, i.isOk = true) :
    let a := Advance.full settings
    let r := (a.expression s).read
    ∃ ts ds,
      (s.remaining settings = ts ++ r.2.remaining settings ∧ r.2.kind.goesOn = false ∧
        ∀ e, Derives .whole ts e ↔ e = r.1 ∧ r.1.hasError = false) ∧
      (r.2.log = s.log ++ ds ∧ (∀ d ∈ ds, d.cause = .stringTooLong) ∧
        Feed.reports settings.limits.maxStringLength s.feed.scan.items
          = ds ++ Feed.reports settings.limits.maxStringLength r.2.feed.scan.items) ∧
      ((∃ v, r.1.eval symbols = .ok v ∧ (∀ p f, r.1.Asks symbols p → ¬p.Faulty symbols f) ∧
          a.constant symbols s = (v, r.2)) ∨
        ∃ p f, r.1.Asks symbols p ∧ p.Faulty symbols f ∧
          a.constant symbols s = (0, r.2.reportAt f.span (.expression f.fault.message))) ∧
      ((∀ x ∈ ts, x.kind ≠ .question) → r.1.hasError = true →
        ∃ f : EvalError,
          a.constant symbols s = (0, r.2.reportAt f.span (.expression f.fault.message))) := by
  intro a r
  have hconsumed : a.Consumed .whole s r := a.consumed_levels.1 s
  obtain ⟨hstop, ts, hts, hline, hstraight⟩ := hconsumed
  have heof : ∀ x ∈ ts, x.kind ≠ .eof := fun x hx => Kind.ne_of_isSeparator (hline x hx) rfl
  have hraw := raw_shows_of_passing settings hts heof hp
  obtain ⟨ds, hlog, hreports⟩ := log_of_shows settings hraw
  have hcases := a.constant_cases symbols s
  refine ⟨ts, ds, ⟨remaining_of_shows settings hraw heof, hstop, fun e => ?_⟩,
    ⟨hlog, fun d hd => ?_, hreports⟩, hcases, fun hq herror => ?_⟩
  · constructor
    · intro hd
      have hread : r = (e, r.2) := ((a.expression_iff s r.2 e).mpr ⟨ts, hts, hd, hstop⟩).1
      rw [hread]
      exact ⟨rfl, hd.hasError⟩
    · rintro ⟨rfl, hclean⟩
      obtain ⟨us, hus, hd, _⟩ := (a.expression_iff s r.2 r.1).mp ⟨rfl, hclean⟩
      -- what is shown on a way is what remains at its beginning and not at its end
      have hus' : ∀ x ∈ us, x.kind ≠ .eof := fun x hx => (hd.plain_of_mem x hx).2
      have hremain := remaining_of_shows settings (raw_shows_of_passing settings hus hus' hp) hus'
      rw [remaining_of_shows settings hraw heof] at hremain
      rwa [List.append_cancel_right hremain]
  · have hall := Array.mem_append_left
      (Feed.reports settings.limits.maxStringLength r.2.feed.scan.items) hd
    rw [← hreports] at hall
    exact cause_of_mem_reports hok hall
  · rcases hcases with ⟨v, _, hsound, _⟩ | ⟨p, f, _, _, hc⟩
    · obtain ⟨fault, span, hask⟩ : ∃ fault span, r.1.Asks symbols (.error fault span) :=
        Expr.asks_error (hstraight hq) herror
      exact absurd (.malformed fault span) (hsound _ _ hask)
    · exact ⟨f, hc⟩

/-- An operand is missing deep inside, and no conditional hides it. -/
theorem constant_notices_missing_operand :
    let s := (ofSource "2 * (x + )").advance {}
    let a := Advance.full {}
    (∀ x ∈ s.ahead {}, s.isRaw = true ∨ x.kind.function? = none) ∧
      (∀ i ∈ s.feed.scan.items, i.isOk = true) ∧
      ∃ f : EvalError, a.constant {} s
        = (0, (a.expression s).read.2.reportAt f.span (.expression f.fault.message)) := by
  intro s a
  have hp : ∀ x ∈ s.ahead {}, s.isRaw = true ∨ x.kind.function? = none := by decide +kernel
  have hok : ∀ i ∈ s.feed.scan.items, i.isOk = true := by decide +kernel
  have hq : ∀ x ∈ s.remaining {}, x.kind ≠ .question := by decide +kernel
  obtain ⟨ts, _, ⟨hts, _⟩, _, _, hstraight⟩ := constant_notices {} {} s hp hok
  rw [hts] at hq
  refine ⟨hp, hok, hstraight (fun x hx => hq x (List.mem_append_left _ hx)) ?_⟩
  decide +kernel

/-- The operand after the colon is missing, so what is read up to the parenthesis is no
expression. It has a value all the same, and nothing is reported. -/
theorem constant_accepts_unfinished :
    let s := (ofSource "1 ? 2 : )").advance {}
    let a := Advance.full {}
    (∀ x ∈ s.ahead {}, x.kind.function? = none) ∧ (∀ i ∈ s.feed.scan.items, i.isOk = true) ∧
      (¬∃ ts e, a.Shows s ts (a.expression s).read.2 ∧ Derives .whole ts e) ∧
      (a.constant {} s).1 = 2 ∧ (a.constant {} s).2.log = #[] := by
  intro s a
  have herror : (a.expression s).read.1.hasError = true := by decide +kernel
  refine ⟨by decide +kernel, by decide +kernel, fun h => ?_, by decide +kernel, by decide +kernel⟩
  rw [a.complete_iff s, herror] at h
  cases h

end Stream

end AsmExpand
