import AsmExpand.Proofs.Conservation
import AsmExpand.Proofs.LineEnds
import AsmExpand.Proofs.ParserLevels

/-!
# The grammar of expressions

`Derives level ts e` says that the tokens `ts` are an expression of a level of the grammar,
and that `e` is its tree. The grammar is a list of rules over tables of operators: it says
which tokens belong together, and nothing about how they are read.

The parser recognises exactly this grammar (`Advance.expression_iff`), however it goes from
token to token. What it reads is said by `Advance.Shows`: the tokens that are current one
after the other on the way from one stream to another.

* That a derivation is read as its tree is an induction on the derivation. A level reads on
  as far as it can, so at each level the derivation must be followed by a token that does not
  go on with it (`Stops`). A level of operators that group to the left is derived from the
  left, but read by a loop: what the induction says of it is that the loop comes to the
  derived operand with what follows still to read (`Advance.Comes`).
* That a tree without an error has a derivation is an induction along the parser. A loop adds
  its tokens to any derivation of the operand it was given.

On a stream without calls the tokens shown are those of the feed, and `expression_grammar`
says the same in terms of these.
-/

namespace AsmExpand

/-- Whether a part of a tree is no expression. -/
def Expr.hasError : Expr → Bool
  | .number .. | .symbol .. | .text .. => false
  | .unary _ e _ => e.hasError
  | .binary _ l r _ => l.hasError || r.hasError
  | .conditional c y n _ => c.hasError || y.hasError || n.hasError
  | .error .. => true

/-- Whether a token goes on with an expression before it: a binary operator or `?`. -/
def Kind.goesOn : Kind → Bool
  | .operator .bitNot | .operator .logicNot => false
  | .operator _ | .question => true
  | _ => false

namespace Grammar

/-! ## The rules -/

/-- The operators in front of a whole expression. -/
def bytePrefixes : List (Operator × UnaryOp) := [(.lt, .low), (.gt, .high)]

/-- The operators in front of an operand. -/
def signs : List (Operator × UnaryOp) :=
  [(.plus, .plus), (.minus, .minus), (.bitNot, .bitNot), (.logicNot, .logicNot)]

/-- The operators that group to the left, from the tightest level to the loosest. -/
def leftLevels : List (List (Operator × BinaryOp)) :=
  [[(.multiply, .multiply), (.divide, .divide), (.modulo, .modulo)],
   [(.plus, .add), (.minus, .subtract)],
   [(.shiftLeft, .shiftLeft), (.shiftRight, .shiftRight)],
   [(.eq, .eq), (.ne, .ne), (.ge, .ge), (.gt, .gt), (.le, .le), (.lt, .lt)],
   [(.bitAnd, .bitAnd)],
   [(.bitXor, .bitXor)],
   [(.bitOr, .bitOr)],
   [(.logicAnd, .logicAnd)],
   [(.logicOr, .logicOr), (.logicXor, .logicXor)]]

/-- The operators of one level that groups to the left, 0 being the tightest. -/
def leftLevel (rank : Nat) : List (Operator × BinaryOp) := leftLevels[rank]?.getD []

inductive Level where
  /-- An expression. -/
  | whole
  /-- Operators of the levels below `rank` that group to the left. -/
  | upTo (rank : Nat)
  | power
  /-- An operand of `**`. -/
  | operand
  | atom

/-- `Derives level ts e`: the tokens are an expression of the level, and `e` is its tree. -/
inductive Derives : Level → List Token → Expr → Prop where
  | byteOf {t : Token} {o : Operator} {op : UnaryOp} {ts : List Token} {e : Expr} :
      t.kind = .operator o → (o, op) ∈ bytePrefixes → Derives .whole ts e →
      Derives .whole (t :: ts) (.unary op e t.span)
  | plain {ts : List Token} {e : Expr} :
      Derives (.upTo leftLevels.length) ts e → Derives .whole ts e
  | conditional {q k : Token} {ts us vs : List Token} {c y n : Expr} :
      Derives (.upTo leftLevels.length) ts c → q.kind = .question →
      Derives .whole us y → k.kind = .colon → Derives .whole vs n →
      Derives .whole (ts ++ q :: (us ++ k :: vs)) (.conditional c y n q.span)
  | tightest {ts : List Token} {e : Expr} : Derives .power ts e → Derives (.upTo 0) ts e
  | tighter {rank : Nat} {ts : List Token} {e : Expr} :
      Derives (.upTo rank) ts e → Derives (.upTo (rank + 1)) ts e
  | left {rank : Nat} {t : Token} {o : Operator} {op : BinaryOp} {ts us : List Token}
      {l r : Expr} :
      Derives (.upTo (rank + 1)) ts l → t.kind = .operator o → (o, op) ∈ leftLevel rank →
      Derives (.upTo rank) us r →
      Derives (.upTo (rank + 1)) (ts ++ t :: us) (.binary op l r t.span)
  | bare {ts : List Token} {e : Expr} : Derives .operand ts e → Derives .power ts e
  | raised {t : Token} {ts us : List Token} {b e : Expr} :
      Derives .operand ts b → t.kind = .operator .power → Derives .power us e →
      Derives .power (ts ++ t :: us) (.binary .power b e t.span)
  | signed {t : Token} {o : Operator} {op : UnaryOp} {ts : List Token} {e : Expr} :
      t.kind = .operator o → (o, op) ∈ signs → Derives .operand ts e →
      Derives .operand (t :: ts) (.unary op e t.span)
  | unsigned {ts : List Token} {e : Expr} : Derives .atom ts e → Derives .operand ts e
  | number {t : Token} : t.kind = .int → Derives .atom [t] (.number (t.int?.getD 0) t.span)
  | symbol {t : Token} : t.kind = .ident → Derives .atom [t] (.symbol t.text t.span)
  | text {t : Token} : t.kind = .text → Derives .atom [t] (.text t.text t.span)
  | parens {p q : Token} {ts : List Token} {e : Expr} :
      p.kind = .leftParen → Derives .whole ts e → q.kind = .rightParen →
      Derives .atom (p :: (ts ++ [q])) e

theorem Derives.mono {rank rank' : Nat} {ts : List Token} {e : Expr} (h : Derives (.upTo rank) ts e)
    (hle : rank ≤ rank') : Derives (.upTo rank') ts e := by
  induction hle with
  | refl => exact h
  | step _ ih => exact .tighter ih

/-- An atom is an expression. -/
theorem Derives.of_atom {ts : List Token} {e : Expr} (h : Derives .atom ts e) :
    Derives .whole ts e :=
  .plain (mono (.tightest (.bare (.unsigned h))) (Nat.zero_le _))

/-- A sign binds closer than `**`. -/
example (minus two power three : Token) (hm : minus.kind = .operator .minus)
    (h2 : two.kind = .int) (hp : power.kind = .operator .power) (h3 : three.kind = .int) :
    Derives .power [minus, two, power, three]
      (.binary .power (.unary .minus (.number (two.int?.getD 0) two.span) minus.span)
        (.number (three.int?.getD 0) three.span) power.span) := by
  have base : Derives .operand [minus, two]
      (.unary .minus (.number (two.int?.getD 0) two.span) minus.span) :=
    .signed hm (by decide) (.unsigned (.number h2))
  exact .raised base hp (.bare (.unsigned (.number h3)))

/-! ## The parser's tables

The parser looks operators up by token; the rules list them by level. -/

theorem byteOf?_iff (k : Kind) (op : UnaryOp) :
    k.byteOf? = some op ↔ ∃ o, k = .operator o ∧ (o, op) ∈ bytePrefixes := by
  constructor
  · intro h
    obtain ⟨o, hk, ho⟩ := Option.bind_eq_some_iff.mp h
    refine ⟨o, ?_, ?_⟩
    · cases k <;> simp_all [Kind.operator?]
    · cases o <;> simp_all [Operator.byteOf?, bytePrefixes]
  · rintro ⟨o, rfl, ho⟩
    simp only [bytePrefixes, List.mem_cons, Prod.mk.injEq, List.not_mem_nil, or_false] at ho
    rcases ho with ⟨rfl, rfl⟩ | ⟨rfl, rfl⟩ <;> rfl

theorem unary?_iff (k : Kind) (op : UnaryOp) :
    k.unary? = some op ↔ ∃ o, k = .operator o ∧ (o, op) ∈ signs := by
  constructor
  · intro h
    obtain ⟨o, hk, ho⟩ := Option.bind_eq_some_iff.mp h
    refine ⟨o, ?_, ?_⟩
    · cases k <;> simp_all [Kind.operator?]
    · cases o <;> simp_all [Operator.unary?, signs]
  · rintro ⟨o, rfl, ho⟩
    simp only [signs, List.mem_cons, Prod.mk.injEq, List.not_mem_nil, or_false] at ho
    rcases ho with ⟨rfl, rfl⟩ | ⟨rfl, rfl⟩ | ⟨rfl, rfl⟩ | ⟨rfl, rfl⟩ <;> rfl

theorem rank?_iff (o : Operator) (rank : Nat) (op : BinaryOp) :
    o.rank? = some (rank + 1, op) ↔ (o, op) ∈ leftLevel rank := by
  constructor
  · intro h
    cases o <;> simp only [Operator.rank?, Option.some.injEq, Prod.mk.injEq, reduceCtorEq] at h <;>
      obtain ⟨hr, rfl⟩ := h <;> obtain rfl := Nat.succ.inj hr.symm <;> decide
  · intro h
    have listed : ∀ p ∈ leftLevel rank, p.1.rank? = some (rank + 1, p.2) := by
      match rank with
      | 0 | 1 | 2 | 3 | 4 | 5 | 6 | 7 | 8 => decide
      | rank + 9 => simp [leftLevel, leftLevels]
    exact listed _ h

theorem exists_of_rank? {o : Operator} {p : Nat × BinaryOp} (h : o.rank? = some p) :
    ∃ rank op, rank < leftLevels.length ∧ p = (rank + 1, op) := by
  have hpos : 0 < p.1 ∧ p.1 ≤ leftLevels.length := by
    cases o <;> cases h <;> decide
  exact ⟨p.1 - 1, p.2, by omega, Prod.ext (by simp only; omega) rfl⟩

theorem binaryAt?_iff (k : Kind) (rank : Nat) (op : BinaryOp) :
    k.binaryAt? (rank + 1) = some op ↔ ∃ o, k = .operator o ∧ (o, op) ∈ leftLevel rank := by
  constructor
  · intro h
    cases k with
    | operator o =>
      refine ⟨o, rfl, (rank?_iff o rank op).mp ?_⟩
      simp only [Kind.binaryAt?, Kind.operator?, Option.bind_some] at h
      split at h
      · rename_i r op' hr
        split at h
        · rename_i he
          rw [hr, he, Option.some.inj h]
        · cases h
      · cases h
    | _ => cases h
  · rintro ⟨o, rfl, ho⟩
    have hr := (rank?_iff o rank op).mpr ho
    simp [Kind.binaryAt?, Kind.operator?, hr]

/-! ## Where a level begins and ends -/

/-- A token that a derivation of a level can begin with. -/
def Starts : Level → Kind → Prop
  | .whole, _ => True
  | .upTo _, k | .power, k | .operand, k => k.byteOf? = none
  | .atom, k => k.byteOf? = none ∧ k.unary? = none

/-- A token that a level does not read on with. -/
def Stops : Level → Kind → Prop
  | .whole, k => k.goesOn = false
  | .upTo rank, k => k ≠ .operator .power ∧ ∀ r < rank, k.binaryAt? (r + 1) = none
  | .power, k => k ≠ .operator .power
  | .operand, _ | .atom, _ => True

/-- A sign is no prefix of a whole expression. -/
theorem byteOf?_of_signs {o : Operator} {op : UnaryOp} (h : (o, op) ∈ signs) :
    (Kind.operator o).byteOf? = none := by
  have listed : ∀ p ∈ signs, (Kind.operator p.1).byteOf? = none := by decide
  exact listed _ h

/-- An operator belongs to one level. -/
theorem stops_of_mem_leftLevel {o : Operator} {op : BinaryOp} {rank : Nat}
    (h : (o, op) ∈ leftLevel rank) : Stops (.upTo rank) (.operator o) := by
  have hr := (rank?_iff o rank op).mpr h
  refine ⟨?_, ?_⟩
  · intro e
    obtain rfl := Kind.operator.inj e
    cases hr
  · intro r hlt
    have hne : rank ≠ r := by omega
    simp [Kind.binaryAt?, Kind.operator?, hr, hne]

/-- Nothing inside an expression goes on with a token that does not go on with the whole. -/
theorem stops_of_goesOn {k : Kind} (h : k.goesOn = false) (rank : Nat) : Stops (.upTo rank) k := by
  refine ⟨?_, ?_⟩
  · rintro rfl
    cases h
  · intro r _
    cases hb : k.binaryAt? (r + 1) with
    | none => rfl
    | some op =>
      obtain ⟨o, rfl, ho⟩ := (binaryAt?_iff k r op).mp hb
      have hr := (rank?_iff o r op).mpr ho
      cases o with
      | bitNot | logicNot => cases hr
      | _ => cases h

/-- Behind the loosest level only `?` can go on. -/
theorem goesOn_of_stops {k : Kind} (h : Stops (.upTo leftLevels.length) k) (hq : k ≠ .question) :
    k.goesOn = false := by
  obtain ⟨hp, hb⟩ := h
  cases k with
  | operator o =>
    cases hr : o.rank? with
    | none =>
      cases o with
      | bitNot | logicNot => rfl
      | power => exact absurd rfl hp
      | _ => cases hr
    | some p =>
      obtain ⟨r, op, hlt, rfl⟩ := exists_of_rank? hr
      have := (binaryAt?_iff (.operator o) r op).mpr ⟨o, rfl, (rank?_iff o r op).mp hr⟩
      rw [hb r hlt] at this
      cases this
  | question => exact absurd rfl hq
  | _ => rfl

/-- A derivation has a first token, and that is one for its level. -/
theorem Derives.head {level : Level} {ts : List Token} {e : Expr} (h : Derives level ts e) :
    ∃ t us, ts = t :: us ∧ Starts level t.kind := by
  induction h with
  | byteOf => exact ⟨_, _, rfl, trivial⟩
  | plain _ ih =>
    obtain ⟨t, us, rfl, _⟩ := ih
    exact ⟨t, us, rfl, trivial⟩
  | conditional _ _ _ _ _ ih =>
    obtain ⟨t, us, rfl, _⟩ := ih
    exact ⟨t, _, rfl, trivial⟩
  | tightest _ ih | tighter _ ih | bare _ ih => exact ih
  | left _ _ _ _ ih | raised _ _ _ ih =>
    obtain ⟨t, us, rfl, hs⟩ := ih
    exact ⟨t, _, rfl, hs⟩
  | signed hk ho _ _ =>
    refine ⟨_, _, rfl, ?_⟩
    rw [Starts, hk]
    exact byteOf?_of_signs ho
  | unsigned _ ih =>
    obtain ⟨t, us, rfl, hs, _⟩ := ih
    exact ⟨t, us, rfl, hs⟩
  | number hk | symbol hk | text hk | parens hk =>
    refine ⟨_, _, rfl, ?_⟩
    rw [Starts, hk]
    exact ⟨rfl, rfl⟩

/-- What is derived neither calls a function nor ends the input. -/
theorem Derives.plain_of_mem {level : Level} {ts : List Token} {e : Expr}
    (h : Derives level ts e) :
    ∀ x ∈ ts, x.kind.function? = none ∧ x.kind ≠ .eof := by
  induction h with
  | plain _ ih | tightest _ ih | tighter _ ih | bare _ ih | unsigned _ ih => exact ih
  | byteOf hk _ _ ih | signed hk _ _ ih =>
    simp only [List.forall_mem_cons]
    exact ⟨by simp [hk, Kind.function?], ih⟩
  | conditional _ hq _ hk _ ihc ihy ihn =>
    simp only [List.forall_mem_append, List.forall_mem_cons]
    exact ⟨ihc, by simp [hq, Kind.function?], ihy, by simp [hk, Kind.function?], ihn⟩
  | left _ hk _ _ ihl ihr | raised _ hk _ ihl ihr =>
    simp only [List.forall_mem_append, List.forall_mem_cons]
    exact ⟨ihl, by simp [hk, Kind.function?], ihr⟩
  | number hk | symbol hk | text hk =>
    simp [hk, Kind.function?]
  | parens hp _ hq ih =>
    simp only [List.forall_mem_append, List.forall_mem_cons]
    exact ⟨by simp [hp, Kind.function?], ih, by simp [hq, Kind.function?]⟩

/-- The tree of a derivation is an expression throughout. -/
theorem Derives.hasError {level : Level} {ts : List Token} {e : Expr} (h : Derives level ts e) :
    e.hasError = false := by
  induction h <;> simp_all [Expr.hasError]

end Grammar

/-! ## What a stream shows -/

namespace Advance

variable {a : Advance}

/-- `a.Shows s ts t`: advancing from `s` to `t` shows the tokens `ts`, the current token of
`t` not among them. -/
inductive Shows (a : Advance) : Stream → List Token → Stream → Prop where
  | here (s : Stream) : Shows a s [] s
  | step {s t : Stream} {ts : List Token} : Shows a (a s) ts t → Shows a s (s.current :: ts) t

namespace Shows

variable {s t : Stream}

theorem nil_iff : a.Shows s [] t ↔ s = t := by
  constructor
  · intro h
    cases h
    rfl
  · rintro rfl
    exact .here s

theorem cons_iff {x : Token} {ts : List Token} :
    a.Shows s (x :: ts) t ↔ s.current = x ∧ a.Shows (a s) ts t := by
  constructor
  · intro h
    cases h with
    | step h => exact ⟨rfl, h⟩
  · rintro ⟨rfl, h⟩
    exact .step h

theorem append_iff {ts us : List Token} :
    a.Shows s (ts ++ us) t ↔ ∃ m, a.Shows s ts m ∧ a.Shows m us t := by
  induction ts generalizing s with
  | nil => simp [nil_iff]
  | cons x ts ih => simp [cons_iff, ih, and_assoc]

/-- What is derived is shown from its first token on. -/
theorem starts {level : Grammar.Level} {ts : List Token} {e : Expr} (h : a.Shows s ts t)
    (hd : Grammar.Derives level ts e) : Grammar.Starts level s.kind := by
  obtain ⟨x, us, rfl, hs⟩ := hd.head
  rw [Stream.kind, (cons_iff.mp h).1]
  exact hs

end Shows

/-! ## A derivation is read as its tree -/

section

open Grammar

variable (a : Advance)

/-- What a level reads. -/
def readAt : Level → Stream → Expr × Stream
  | .whole, s => (a.expression s).read
  | .upTo rank, s => (a.binary rank s).read
  | .power, s => (a.power s).read
  | .operand, s => (a.unary s).read
  | .atom, s => (a.primary s).read

/-- A level read at `s` comes to the tree `e` and the stream `t`, and stops there if the token
at `t` stops it. A level that groups to the left has its loop still to do at `t`. -/
def Comes (level : Level) (s : Stream) (e : Expr) (t : Stream) : Prop :=
  match level with
  | .upTo (rank + 1) =>
    Stops (.upTo rank) t.kind → a.readAt (.upTo (rank + 1)) s = (a.chain rank e t).read
  | level => Stops level t.kind → a.readAt level s = (e, t)

variable {a}

theorem Comes.read {level : Level} {s t : Stream} {e : Expr} (h : a.Comes level s e t)
    (hs : Stops level t.kind) : a.readAt level s = (e, t) := by
  match level with
  | .upTo (rank + 1) =>
    have hinner : Stops (.upTo rank) t.kind := ⟨hs.1, fun r hr => hs.2 r (by omega)⟩
    rw [h hinner, a.chain_read, hs.2 rank (by omega)]
  | .upTo 0 | .whole | .power | .operand | .atom => exact h hs

theorem comes_of_derives {level : Level} {ts : List Token} {e : Expr} (hd : Derives level ts e) :
    ∀ {s t : Stream}, a.Shows s ts t → a.Comes level s e t := by
  induction hd with
  | @byteOf x o op ts e hk ho hd ih =>
    intro s t h hstop
    obtain ⟨rfl, h₁⟩ := Shows.cons_iff.mp h
    have hop : s.kind.byteOf? = some op := (byteOf?_iff _ _).mpr ⟨o, hk, ho⟩
    have hr : (a.expression (a s)).read = (e, t) := (ih h₁).read hstop
    rw [readAt, a.expression_read, hop, hr]
  | plain hd ih =>
    intro s t h hstop
    have hr : (a.binary loosest s).read = _ := (ih h).read (stops_of_goesOn hstop _)
    have hop : s.kind.byteOf? = none := h.starts hd
    have hq : t.kind ≠ .question := by
      intro e
      rw [e] at hstop
      cases hstop
    rw [readAt, a.expression_read, hop, hr]
    exact if_neg hq
  | @conditional q k ts us vs c y n hc hq hy hk hn ihc ihy ihn =>
    intro s t h hstop
    obtain ⟨m, hm, h₁⟩ := Shows.append_iff.mp h
    obtain ⟨rfl, h₂⟩ := Shows.cons_iff.mp h₁
    obtain ⟨m', hm', h₃⟩ := Shows.append_iff.mp h₂
    obtain ⟨rfl, h₄⟩ := Shows.cons_iff.mp h₃
    have hop : s.kind.byteOf? = none := hm.starts hc
    have hrc : (a.binary loosest s).read = (c, m) := (ihc hm).read (by
      rw [show m.kind = _ from hq]
      exact ⟨by simp, fun _ _ => rfl⟩)
    have hry : (a.expression (a m)).read = (y, m') := (ihy hm').read (by
      rw [show m'.kind = _ from hk]
      rfl)
    have hrn : (a.expression (a m')).read = (n, t) := (ihn h₄).read hstop
    rw [readAt, a.expression_read, hop, hrc]
    dsimp only
    rw [hry]
    dsimp only
    rw [hrn, if_pos (show m.kind = _ from hq), if_pos (show m'.kind = _ from hk)]
  | tightest hd ih =>
    intro s t h hstop
    rw [readAt, a.binary_zero_read]
    exact (ih h).read hstop.1
  | @tighter rank ts e hd ih =>
    intro s t h hstop
    have hr : (a.binary rank s).read = (e, t) := (ih h).read hstop
    rw [readAt, a.binary_succ_read, hr]
  | @left rank x o op ts us l r hl hk ho hr ihl ihr =>
    intro s t h hstop
    obtain ⟨m, hm, h₁⟩ := Shows.append_iff.mp h
    obtain ⟨rfl, h₂⟩ := Shows.cons_iff.mp h₁
    have hk : m.kind = .operator o := hk
    have hop : m.kind.binaryAt? (rank + 1) = some op := (binaryAt?_iff _ _ _).mpr ⟨o, hk, ho⟩
    have hleft := ihl hm (by
      rw [hk]
      exact stops_of_mem_leftLevel ho)
    have hright : (a.binary rank (a m)).read = (r, t) := (ihr h₂).read hstop
    rw [hleft, a.chain_read, hop]
    dsimp only
    rw [hright]
  | bare hd ih =>
    intro s t h hstop
    have hr : (a.unary s).read = _ := (ih h).read trivial
    rw [readAt, a.power_read, hr]
    exact if_neg hstop
  | @raised x ts us b e hb hk he ihb ihe =>
    intro s t h hstop
    obtain ⟨m, hm, h₁⟩ := Shows.append_iff.mp h
    obtain ⟨rfl, h₂⟩ := Shows.cons_iff.mp h₁
    have hrb : (a.unary s).read = (b, m) := (ihb hm).read trivial
    have hre : (a.power (a m)).read = (e, t) := (ihe h₂).read hstop
    rw [readAt, a.power_read, hrb]
    dsimp only
    rw [hre]
    exact if_pos (show m.kind = _ from hk)
  | @signed x o op ts e hk ho hd ih =>
    intro s t h _
    obtain ⟨rfl, h₁⟩ := Shows.cons_iff.mp h
    have hop : s.kind.unary? = some op := (unary?_iff _ _).mpr ⟨o, hk, ho⟩
    have hr : (a.unary (a s)).read = (e, t) := (ih h₁).read trivial
    rw [readAt, a.unary_read, hop, hr]
  | unsigned hd ih =>
    intro s t h _
    have hop : s.kind.unary? = none := (h.starts hd).2
    rw [readAt, a.unary_read, hop]
    exact (ih h).read trivial
  | number hk | symbol hk | text hk =>
    intro s t h _
    obtain ⟨rfl, h₁⟩ := Shows.cons_iff.mp h
    obtain rfl := Shows.nil_iff.mp h₁
    rw [readAt, a.primary_read, show s.kind = _ from hk]
  | @parens p q ts e hp hd hq ih =>
    intro s t h _
    obtain ⟨rfl, h₁⟩ := Shows.cons_iff.mp h
    obtain ⟨m, hm, h₂⟩ := Shows.append_iff.mp h₁
    obtain ⟨rfl, h₃⟩ := Shows.cons_iff.mp h₂
    obtain rfl := Shows.nil_iff.mp h₃
    have hr : (a.expression (a s)).read = (e, m) := (ih hm).read (by
      rw [show m.kind = _ from hq]
      rfl)
    rw [readAt, a.primary_read, show s.kind = _ from hp]
    simp only [hr]
    exact if_pos hq

/-! ## A tree without an error has a derivation -/

variable (a)

/-- What was read at `s`: a tree without an error is derived from the tokens shown, and the
token behind them stops the level. -/
def Derived (level : Level) (s : Stream) (r : Expr × Stream) : Prop :=
  r.1.hasError = false →
    Stops level r.2.kind ∧ ∃ ts, a.Shows s ts r.2 ∧ Derives level ts r.1

/-- What a loop read at `s` behind an operand: a tree without an error has the operand in it,
and the tokens shown extend each derivation of the operand to one of the tree. -/
def Extended (rank : Nat) (left : Expr) (s : Stream) (r : Expr × Stream) : Prop :=
  r.1.hasError = false → left.hasError = false ∧
    (Stops (.upTo rank) s.kind →
      Stops (.upTo (rank + 1)) r.2.kind ∧
        ∃ ts, a.Shows s ts r.2 ∧ ∀ ls, Derives (.upTo (rank + 1)) ls left →
          Derives (.upTo (rank + 1)) (ls ++ ts) r.1)

theorem derived_levels :
    (∀ s, a.Derived .whole s (a.readAt .whole s)) ∧
    (∀ rank s, a.Derived (.upTo rank) s (a.readAt (.upTo rank) s)) ∧
    (∀ rank left s, a.Extended rank left s (a.chain rank left s).read) ∧
    (∀ s, a.Derived .power s (a.readAt .power s)) ∧
    (∀ s, a.Derived .operand s (a.readAt .operand s)) ∧
    (∀ s, a.Derived .atom s (a.readAt .atom s)) := by
  apply levels_induct a
  case byteOf =>
    intro s op hop ih
    rw [readAt, a.expression_read, hop]
    intro hclean
    obtain ⟨hstop, ts, hshow, hd⟩ := ih hclean
    obtain ⟨o, hk, ho⟩ := (byteOf?_iff _ _).mp hop
    exact ⟨hstop, _, .step hshow, .byteOf hk ho hd⟩
  case conditional =>
    intro s hop ihc ih
    rw [readAt, a.expression_read, hop]
    have ih := ih _ rfl
    dsimp only [readAt] at *
    generalize (a.binary loosest s).read = cond at *
    by_cases hq : cond.2.kind = .question
    · obtain ⟨ihy, ihn⟩ := ih hq
      have ihn := ihn _ rfl
      rw [if_pos hq]
      generalize (a.expression (a cond.2)).read = yes at *
      by_cases hk : yes.2.kind = .colon
      · have ihn := ihn hk
        rw [if_pos hk]
        generalize (a.expression (a yes.2)).read = no at *
        intro hclean
        simp only [Expr.hasError, Bool.or_eq_false_iff] at hclean
        obtain ⟨_, ts, hts, hdc⟩ := ihc hclean.1.1
        obtain ⟨_, us, hus, hdy⟩ := ihy hclean.1.2
        obtain ⟨hstop, vs, hvs, hdn⟩ := ihn hclean.2
        refine ⟨hstop, _, ?_, .conditional hdc hq hdy hk hdn⟩
        have hrest := Shows.append_iff.mpr ⟨_, hus, .step hvs⟩
        exact Shows.append_iff.mpr ⟨_, hts, .step hrest⟩
      · rw [if_neg hk]
        intro hclean
        cases hclean
    · rw [if_neg hq]
      intro hclean
      obtain ⟨hstop, ts, hts, hd⟩ := ihc hclean
      exact ⟨goesOn_of_stops hstop hq, ts, hts, .plain hd⟩
  case tightest =>
    intro s ih
    rw [readAt, a.binary_zero_read]
    intro hclean
    obtain ⟨hstop, ts, hts, hd⟩ := ih hclean
    exact ⟨⟨hstop, fun r hr => absurd hr (Nat.not_lt_zero r)⟩, ts, hts, .tightest hd⟩
  case level =>
    intro rank s ihl ihb
    rw [readAt, a.binary_succ_read]
    have ihb := ihb _ rfl
    intro hclean
    obtain ⟨hleft, hrest⟩ := ihb hclean
    obtain ⟨hstop, ls, hls, hdl⟩ := ihl hleft
    obtain ⟨hstop, ts, hts, hd⟩ := hrest hstop
    exact ⟨hstop, _, Shows.append_iff.mpr ⟨_, hls, hts⟩, hd ls (.tighter hdl)⟩
  case last =>
    intro rank left s hop
    rw [a.chain_read, hop]
    intro hclean
    refine ⟨hclean, ?_⟩
    intro hstop
    refine ⟨⟨hstop.1, ?_⟩, [], .here s, ?_⟩
    · intro r hr
      rcases Nat.lt_succ_iff_lt_or_eq.mp hr with hr | rfl
      · exact hstop.2 r hr
      · exact hop
    · intro ls hd
      rwa [List.append_nil]
  case link =>
    intro rank left s op hop ihr ihb
    rw [a.chain_read, hop]
    have ihb := ihb _ rfl
    dsimp only [readAt] at *
    generalize (a.binary rank (a s)).read = right at *
    intro hclean
    obtain ⟨hnode, hrest⟩ := ihb hclean
    simp only [Expr.hasError, Bool.or_eq_false_iff] at hnode
    refine ⟨hnode.1, ?_⟩
    intro _
    obtain ⟨hstop, us, hus, hdr⟩ := ihr hnode.2
    obtain ⟨hstop, ts, hts, hd⟩ := hrest hstop
    obtain ⟨o, hk, ho⟩ := (binaryAt?_iff _ _ _).mp hop
    refine ⟨hstop, _, .step (Shows.append_iff.mpr ⟨_, hus, hts⟩), ?_⟩
    intro ls hdl
    have := hd _ (.left hdl hk ho hdr)
    rwa [List.append_assoc, List.cons_append] at this
  case raised =>
    intro s ihb ihp
    rw [readAt, a.power_read]
    have ihp := ihp _ rfl
    dsimp only [readAt] at *
    generalize (a.unary s).read = base at *
    by_cases hp : base.2.kind = .operator .power
    · have ihp := ihp hp
      rw [if_pos hp]
      generalize (a.power (a base.2)).read = e at *
      intro hclean
      simp only [Expr.hasError, Bool.or_eq_false_iff] at hclean
      obtain ⟨_, ts, hts, hdb⟩ := ihb hclean.1
      obtain ⟨hstop, us, hus, hde⟩ := ihp hclean.2
      exact ⟨hstop, _, Shows.append_iff.mpr ⟨_, hts, .step hus⟩, .raised hdb hp hde⟩
    · rw [if_neg hp]
      intro hclean
      obtain ⟨_, ts, hts, hd⟩ := ihb hclean
      exact ⟨hp, ts, hts, .bare hd⟩
  case signed =>
    intro s op hop ih
    rw [readAt, a.unary_read, hop]
    intro hclean
    obtain ⟨_, ts, hts, hd⟩ := ih hclean
    obtain ⟨o, hk, ho⟩ := (unary?_iff _ _).mp hop
    exact ⟨trivial, _, .step hts, .signed hk ho hd⟩
  case bare =>
    intro s hop ih
    rw [readAt, a.unary_read, hop]
    intro hclean
    obtain ⟨_, ts, hts, hd⟩ := ih hclean
    exact ⟨trivial, ts, hts, .unsigned hd⟩
  case parens =>
    intro s ih
    rw [readAt, a.primary_read]
    split
    · rename_i hk
      exact fun _ => ⟨trivial, _, .step (.here _), .number hk⟩
    · rename_i hk
      exact fun _ => ⟨trivial, _, .step (.here _), .symbol hk⟩
    · rename_i hk
      exact fun _ => ⟨trivial, _, .step (.here _), .text hk⟩
    · rename_i hk
      have ih := ih hk
      dsimp only [readAt] at *
      generalize (a.expression (a s)).read = r at *
      by_cases hp : r.2.kind = .rightParen
      · rw [if_pos hp]
        intro hclean
        obtain ⟨_, ts, hts, hd⟩ := ih hclean
        refine ⟨trivial, _, ?_, .parens hk hd hp⟩
        exact .step (Shows.append_iff.mpr ⟨_, hts, .step (.here _)⟩)
      · rw [if_neg hp]
        intro hclean
        cases hclean
    · split
      · intro hclean
        cases hclean
      · intro hclean
        cases hclean

/-- **The parser recognises exactly the grammar**, whatever the way from token to token. It
comes to a tree without an error just when the tokens shown have that tree, and it stops at
the first token behind them, which does not go on with the expression. -/
theorem expression_iff (s t : Stream) (e : Expr) :
    (a.expression s).read = (e, t) ∧ e.hasError = false ↔
      ∃ ts, a.Shows s ts t ∧ Derives .whole ts e ∧ t.kind.goesOn = false := by
  constructor
  · rintro ⟨hr, hclean⟩
    have hd := a.derived_levels.1 s
    rw [readAt, hr] at hd
    obtain ⟨hstop, ts, hts, hd⟩ := hd hclean
    exact ⟨ts, hts, hd, hstop⟩
  · rintro ⟨ts, hts, hd, hstop⟩
    exact ⟨(comes_of_derives hd hts).read hstop, hd.hasError⟩

end

end Advance

/-! ## Streams without calls -/

namespace Stream

open Grammar

variable (settings : Settings)

/-- A token that calls nothing is taken as the feed delivers it. -/
theorem advance_of_passing {s : Stream}
    (h : s.isRaw = true ∨ (s.fetch settings).kind.function? = none) :
    s.advance settings = s.fetch settings :=
  advance_of_call?_eq_none settings (call?_of_passing (h.imp_right Or.inl))

/-- A token that calls nothing becomes current as it is delivered. -/
theorem advance_of_next {s : Stream} {x : Token} {g : Feed}
    (hn : ∀ log, s.feed.next settings.limits.maxStringLength log = ⟨x, log, g⟩)
    (hx : s.isRaw = true ∨ x.kind.function? = none) :
    s.advance settings = { s with feed := g, current := x } := by
  have hfetch : s.fetch settings = { s with feed := g, current := x } := by
    simp only [fetch, hn]
  rw [← hfetch]
  refine advance_of_passing settings ?_
  rwa [hfetch]

/-- Tokens delivered without a report are shown, if they call nothing. -/
theorem shows_of_delivers {ts : List Token} {t : Token} {g : Feed} {s : Stream}
    (hd : s.feed.Delivers settings.limits.maxStringLength (ts ++ [t]) g)
    (hp : ∀ x ∈ ts ++ [t], s.isRaw = true ∨ x.kind.function? = none) :
    ∃ s' : Stream, (Advance.full settings).Shows s (s.current :: ts) s' ∧ s'.current = t ∧
      s'.log = s.log ∧ s'.rawDepth = s.rawDepth ∧ s'.feed.pushed = g.pushed ∧
      s'.feed.scan = g.scan := by
  induction ts generalizing s with
  | nil =>
    cases hd with
    | @next _ _ h _ _ hn hd =>
      cases hd with
      | done hpush hscan =>
        refine ⟨{ s with feed := h, current := t }, ?_, rfl, rfl, rfl, hpush, hscan⟩
        rw [← advance_of_next settings hn (hp t List.mem_cons_self)]
        exact .step (.here _)
  | cons x ts ih =>
    cases hd with
    | @next _ _ h _ _ hn hd =>
      obtain ⟨s', hs', hrest⟩ := ih (s := { s with feed := h, current := x }) hd
        fun y hy => hp y (List.mem_cons_of_mem _ hy)
      refine ⟨s', .step ?_, hrest⟩
      have hadvance := advance_of_next settings hn (hp x List.mem_cons_self)
      rw [show (Advance.full settings).step s = _ from hadvance]
      exact hs'

/-- Without calls, tokens are shown as the feed delivers them. -/
theorem raw_shows_of_passing {ts : List Token} {s t : Stream}
    (h : (Advance.full settings).Shows s ts t) (hts : ∀ x ∈ ts, x.kind ≠ .eof)
    (hp : ∀ x ∈ s.ahead settings, s.isRaw = true ∨ x.kind.function? = none) :
    (Advance.raw settings).Shows s ts t := by
  induction h with
  | here s => exact .here s
  | @step s t ts h ih =>
    change (Advance.full settings).Shows (s.advance settings) ts t at h
    change _ → (∀ x ∈ (s.advance settings).ahead settings, (s.advance settings).isRaw = true ∨ _) →
      (Advance.raw settings).Shows (s.advance settings) ts t at ih
    rw [← remaining_fetch] at hp
    by_cases he : (s.fetch settings).kind = .eof
    · -- nothing is shown behind the end of the input
      rw [advance_of_passing settings (Or.inr (by rw [he]; rfl))] at h
      cases h with
      | here => exact .step (.here _)
      | step _ => exact absurd he (hts _ (by simp))
    · rw [remaining_of_ne settings he] at hp
      rw [advance_of_passing settings (hp _ List.mem_cons_self)] at ih
      exact .step (ih (fun x hx => hts x (List.mem_cons_of_mem _ hx))
        fun x hx => hp x (List.mem_cons_of_mem _ hx))

/-- What is shown without calls is what remained, up to what remains behind it. -/
theorem remaining_of_shows {ts : List Token} {s t : Stream}
    (h : (Advance.raw settings).Shows s ts t) (hts : ∀ x ∈ ts, x.kind ≠ .eof) :
    s.remaining settings = ts ++ t.remaining settings := by
  induction h with
  | here => rfl
  | @step s t ts h ih =>
    rw [remaining_of_ne settings (hts _ List.mem_cons_self), List.cons_append, ← remaining_fetch]
    exact congrArg _ (ih fun x hx => hts x (List.mem_cons_of_mem _ hx))

/-- **Expressions without calls.** Tokens that are derived from the grammar are read as their
tree: the token behind them is current then, if it does not go on with the expression, and
nothing is reported. On the other hand, a tree without an error is derived from the tokens
that were read for it. And with calls, the same holds of the tokens that come to be current. -/
theorem expression_grammar (settings : Settings) (s : Stream) :
    (∀ (ts : List Token) (t : Token) (e : Expr) (g : Feed),
      Derives .whole (s.current :: ts) e → t.kind.goesOn = false →
      (s.isRaw = true ∨ t.kind.function? = none) →
      s.feed.Delivers settings.limits.maxStringLength (ts ++ [t]) g →
      ∃ s' : Stream, ((Advance.full settings).expression s).read = (e, s') ∧ s'.current = t ∧
        s'.log = s.log ∧ s'.rawDepth = s.rawDepth ∧ s'.feed.pushed = g.pushed ∧
        s'.feed.scan = g.scan) ∧
    ((∀ x ∈ s.ahead settings, s.isRaw = true ∨ x.kind.function? = none) →
      let r := ((Advance.full settings).expression s).read
      r.1.hasError = false →
      ∃ ts, Derives .whole ts r.1 ∧ s.remaining settings = ts ++ r.2.remaining settings) ∧
    ∀ (a : Advance) (e : Expr) (s' : Stream),
      (a.expression s).read = (e, s') ∧ e.hasError = false ↔
        ∃ ts, a.Shows s ts s' ∧ Derives .whole ts e ∧ s'.kind.goesOn = false := by
  refine ⟨?_, ?_, fun a e s' => a.expression_iff s s' e⟩
  · intro ts t e g hd hstop ht hg
    have hp : ∀ x ∈ ts ++ [t], s.isRaw = true ∨ x.kind.function? = none := by
      intro x hx
      rcases List.mem_append.mp hx with hx | hx
      · exact Or.inr (hd.plain_of_mem x (List.mem_cons_of_mem _ hx)).1
      · rwa [List.mem_singleton.mp hx]
    obtain ⟨s', hshow, hcur, hrest⟩ := shows_of_delivers settings hg hp
    refine ⟨s', (Advance.comes_of_derives hd hshow).read ?_, hcur, hrest⟩
    change s'.current.kind.goesOn = false
    rw [hcur]
    exact hstop
  · intro hp r hclean
    obtain ⟨ts, hshow, hd, _⟩ :=
      ((Advance.full settings).expression_iff s r.2 r.1).mp ⟨rfl, hclean⟩
    have hts : ∀ x ∈ ts, x.kind ≠ .eof := fun x hx => (hd.plain_of_mem x hx).2
    exact ⟨ts, hd, remaining_of_shows settings (raw_shows_of_passing settings hshow hts hp) hts⟩

/-- `-2 ** 3 + 4` is a sum, and its left operand a power of `-2`. The comma behind it ends it. -/
theorem expression_grammar_mixed :
    let mark (kind : Kind) (column : Nat) : Token := ⟨kind, none, ⟨1, column, column + 1⟩⟩
    let int (value : Int64) (column : Nat) : Token :=
      ⟨.int, some (.int value), ⟨1, column, column + 1⟩⟩
    let number (value : Int64) (column : Nat) : Expr := .number value ⟨1, column, column + 1⟩
    let minus := mark (.operator .minus) 1
    let power := mark (.operator .power) 4
    let plus := mark (.operator .plus) 9
    let comma := mark .comma 12
    let ts := [int 2 2, power, int 3 7, plus, int 4 11]
    let left : Expr :=
      .binary .power (.unary .minus (number 2 2) minus.span) (number 3 7) power.span
    let e : Expr := .binary .add left (number 4 11) plus.span
    let rest : Feed := ⟨[], ⟨[.ok (int 5 14)], {}⟩⟩
    let s : Stream :=
      { feed := ⟨[], ⟨(ts ++ [comma]).map .ok ++ [.ok (int 5 14)], {}⟩⟩, current := minus }
    let r := ((Advance.full {}).expression s).read
    Derives .whole (minus :: ts) e ∧ s.feed.Delivers 255 (ts ++ [comma]) rest ∧
      r.1 = e ∧ r.2.current = comma ∧ r.2.log = s.log ∧
      ∃ us, Derives .whole us r.1 ∧ s.remaining {} = us ++ r.2.remaining {} := by
  intro mark int number minus power plus comma ts left e rest s r
  have hleft : Derives .power [minus, int 2 2, power, int 3 7] left :=
    .raised (.signed rfl (by decide) (.unsigned (.number rfl))) rfl
      (.bare (.unsigned (.number rfl)))
  have hright : Derives (.upTo 1) [int 4 11] (number 4 11) :=
    .mono (.tightest (.bare (.unsigned (.number rfl)))) (by decide)
  have hsum : Derives (.upTo 2) (minus :: ts) e :=
    .left (.mono (.tightest hleft) (by decide)) rfl (by decide) hright
  have hd : Derives .whole (minus :: ts) e := .plain (hsum.mono (by decide))
  have hg : s.feed.Delivers 255 (ts ++ [comma]) rest := .scanned (by decide) _ _
  have hpassing : ∀ x ∈ s.ahead {}, s.isRaw = true ∨ x.kind.function? = none := by
    decide +kernel
  obtain ⟨forward, backward, _⟩ := expression_grammar {} s
  obtain ⟨s', hread, hcurrent, hlog, _⟩ := forward ts comma e rest hd rfl (Or.inr rfl) hg
  have hr : r = (e, s') := hread
  have hclean : r.1.hasError = false := by
    rw [hr]
    rfl
  refine ⟨hd, hg, ?_, ?_, ?_, backward hpassing hclean⟩
  · rw [hr]
  · rw [hr, hcurrent]
  · rw [hr, hlog]

end Stream

end AsmExpand
