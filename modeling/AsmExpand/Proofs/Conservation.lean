import AsmExpand.Proofs.Delivery
import AsmExpand.Proofs.Nesting
import Mathlib.Data.List.Forall2

/-!
# Tokens are conserved

Expansion pulls tokens from the feed, keeps some, drops some, pushes some back and
pulls them again. The account of all this is one relation: `Arises vs rs` says how
the tokens `vs` come from the tokens `rs`. Each token of `rs` is kept, or it is
left out, which a separator never is, or it is a closing parenthesis and turns
into a string constant at its place. Nothing else is in `vs`.

The account is kept between what a stream has still to show (`Stream.remaining`)
before and after. To go on inside a line can only use up what remains, so every
reader keeps the account (`Accounts.invariant`). A list that is collected stays
on the books: the tokens collected and what remains behind them arise from what
remained before (`Accounts.collect`), which is why a window may be pushed back.
A resume token behind the window was already on the books as the current token.

`arises_advance` is one step of a stream and `arises_shown` all of them. The
separators are those of the source, in the same order (`Arises.filter_sep`).
-/

namespace AsmExpand

/-- `Arises vs rs`: the tokens `vs` come from the tokens `rs`, in order. -/
inductive Arises : List Token → List Token → Prop where
  | nil : Arises [] []
  /-- A token is left out, unless it is a separator. -/
  | drop {t : Token} {vs rs : List Token} :
      t.kind.isSeparator = false → Arises vs rs → Arises vs (t :: rs)
  /-- A token is kept. -/
  | keep (t : Token) {vs rs : List Token} : Arises vs rs → Arises (t :: vs) (t :: rs)
  /-- A closing parenthesis turns into a string constant. -/
  | relabel {t : Token} {vs rs : List Token} (value : String) :
      t.kind = .rightParen → Arises vs rs → Arises (.ofText value t.span :: vs) (t :: rs)

namespace Arises

theorem refl : ∀ ts, Arises ts ts
  | [] => .nil
  | t :: ts => .keep t (refl ts)

theorem trans {us vs ws : List Token} (h : Arises us vs) (h' : Arises vs ws) : Arises us ws := by
  induction h' generalizing us with
  | nil => exact h
  | drop hk _ ih => exact .drop hk (ih h)
  | keep t _ ih =>
    cases h with
    | drop hk h => exact .drop hk (ih h)
    | keep _ h => exact .keep t (ih h)
    | relabel value hp h => exact .relabel value hp (ih h)
  | relabel value hp _ ih =>
    cases h with
    | drop _ h => exact .drop (by rw [hp]; rfl) (ih h)
    | keep _ h => exact .relabel value hp (ih h)
    -- a constant is no parenthesis, so it is not relabelled again
    | relabel _ hp' _ => cases hp'

theorem append {us vs us' vs' : List Token} (h : Arises us vs) (h' : Arises us' vs') :
    Arises (us ++ us') (vs ++ vs') := by
  induction h with
  | nil => exact h'
  | drop hk _ ih => exact .drop hk ih
  | keep t _ ih => exact .keep t ih
  | relabel value hp _ ih => exact .relabel value hp ih

/-- Tokens inside a line may be left out. -/
theorem of_sublist {ts us : List Token} (h : ts.Sublist us)
    (hk : ∀ t ∈ us, t.kind.isSeparator = false) : Arises ts us := by
  induction h with
  | slnil => exact .nil
  | cons t _ ih =>
    exact .drop (hk t List.mem_cons_self) (ih fun x hx => hk x (List.mem_cons_of_mem _ hx))
  | cons_cons t _ ih => exact .keep t (ih fun x hx => hk x (List.mem_cons_of_mem _ hx))

/-- The separators are the same. -/
theorem filter_sep {vs rs : List Token} (h : Arises vs rs) :
    vs.filter (fun t => decide (t.kind = .sep)) = rs.filter (fun t => decide (t.kind = .sep)) := by
  induction h with
  | nil => rfl
  | @drop t vs rs hk _ ih =>
    have hne : t.kind ≠ .sep := Kind.ne_of_isSeparator hk rfl
    rw [List.filter_cons_of_neg (by simpa using hne), ih]
  | keep t _ ih => rw [List.filter_cons, List.filter_cons, ih]
  | relabel value hp _ ih =>
    rw [List.filter_cons_of_neg (by simp [Token.ofText]),
      List.filter_cons_of_neg (by simp [hp]), ih]

/-- What arises is a part of the source, each token as it was or a closing
parenthesis made a string constant. -/
theorem exists_sublist {vs rs : List Token} (h : Arises vs rs) :
    ∃ ks, ks.Sublist rs ∧
      List.Forall₂ (fun k v => v = k ∨ k.kind = .rightParen ∧ ∃ value, v = .ofText value k.span)
        ks vs := by
  induction h with
  | nil => exact ⟨[], .slnil, .nil⟩
  | drop _ _ ih =>
    obtain ⟨ks, hs, hf⟩ := ih
    exact ⟨ks, hs.cons _, hf⟩
  | keep t _ ih =>
    obtain ⟨ks, hs, hf⟩ := ih
    exact ⟨t :: ks, hs.cons_cons t, .cons (Or.inl rfl) hf⟩
  | @relabel t _ _ value hp _ ih =>
    obtain ⟨ks, hs, hf⟩ := ih
    exact ⟨t :: ks, hs.cons_cons t, .cons (Or.inr ⟨hp, value, rfl⟩) hf⟩

/-- Up to the first separator on each side, the one arises from the other. -/
theorem of_append_separator {us vs vs' rs : List Token} {t u : Token}
    (h : Arises (vs ++ t :: vs') (us ++ u :: rs)) (ht : t.kind.isSeparator = true)
    (hu : u.kind.isSeparator = true) (hvs : ∀ x ∈ vs, x.kind.isSeparator = false)
    (hus : ∀ x ∈ us, x.kind.isSeparator = false) : Arises vs us := by
  have clash : ∀ {k : Kind}, k.isSeparator = true → k.isSeparator = false → False := by
    intro k h h'
    rw [h] at h'
    cases h'
  induction us generalizing vs with
  | nil =>
    cases vs with
    | nil => exact .nil
    | cons v vs =>
      have hv := hvs v List.mem_cons_self
      cases h with
      | drop hk _ => exact (clash hu hk).elim
      | keep _ _ => exact (clash hu hv).elim
      | relabel value hp _ => exact (clash hu (by rw [hp]; rfl)).elim
  | cons x us ih =>
    have hx := hus x List.mem_cons_self
    have hus' : ∀ y ∈ us, y.kind.isSeparator = false :=
      fun y hy => hus y (List.mem_cons_of_mem _ hy)
    cases vs with
    | nil =>
      cases h with
      | drop _ h => exact .drop hx (ih h hvs hus')
      | keep _ _ => exact (clash ht hx).elim
      | relabel value _ _ => cases ht
    | cons v vs =>
      have hvs' : ∀ y ∈ vs, y.kind.isSeparator = false :=
        fun y hy => hvs y (List.mem_cons_of_mem _ hy)
      cases h with
      | drop _ h => exact .drop hx (ih h hvs hus')
      | keep _ h => exact .keep _ (ih h hvs' hus')
      | relabel value hp h => exact .relabel value hp (ih h hvs' hus')

end Arises

namespace Stream

variable (settings : Settings)

/-- What the feed of a stream has to show before the end of the input. -/
def ahead (s : Stream) : List Token := s.feed.delivered settings.limits.maxStringLength

/-- What a stream has to show before the end of the input, the current token
included. -/
def remaining (s : Stream) : List Token :=
  if s.kind = .eof then [] else s.current :: s.ahead settings

theorem remaining_of_ne {s : Stream} (h : s.kind ≠ .eof) :
    s.remaining settings = s.current :: s.ahead settings := if_neg h

theorem remaining_of_not_isSeparator {s : Stream} (h : s.kind.isSeparator = false) :
    s.remaining settings = s.current :: s.ahead settings :=
  remaining_of_ne settings (Kind.ne_of_isSeparator h rfl)

/-- Fetching shows what was ahead. -/
theorem remaining_fetch (s : Stream) :
    (s.fetch settings).remaining settings = s.ahead settings := by
  rw [ahead, Feed.delivered_next _ s.log]
  rfl

/-- What is pushed with the current token behind it comes before what remains. -/
theorem ahead_push_current {s : Stream} {ts : List Token}
    (h : ∀ t ∈ ts, t.kind.isSeparator = false) :
    (s.push (ts ++ [s.current])).ahead settings = ts ++ s.remaining settings := by
  have hts : ∀ t ∈ ts, t.kind ≠ .eof := fun t ht => Kind.ne_of_isSeparator (h t ht) rfl
  change (s.feed.push (ts ++ [s.current])).delivered settings.limits.maxStringLength = _
  rw [Feed.delivered_push_append hts, Feed.delivered_push_singleton]
  rfl

end Stream

/-- The tokens that an outcome puts in front of the feed. -/
def Outcome.tokens : Outcome → List Token
  | .window ts => ts
  | _ => []

namespace Advance

/-- An advance that shows nothing but what was ahead. -/
def Accounts (settings : Settings) (a : Advance) : Prop :=
  ∀ s, Arises ((a s).remaining settings) (s.ahead settings)

namespace Accounts

variable {settings : Settings} {a : Advance}

/-- Going on from a token inside a line leaves it out. -/
theorem step (acc : Accounts settings a) {s : Stream} (hk : s.kind.isSeparator = false) :
    Arises ((a s).remaining settings) (s.remaining settings) := by
  rw [s.remaining_of_not_isSeparator settings hk]
  exact .drop hk (acc s)

/-- Reading uses up what remains. -/
theorem invariant (acc : Accounts settings a) (rs : List Token) :
    Invariant a (fun s => Arises (s.remaining settings) rs) where
  step := fun h hk => (acc.step hk).trans h
  report := fun h _ _ _ => h

/-- What is collected stays in the account. -/
theorem collect (acc : Accounts settings a) (depth : Nat) (s : Stream) :
    Arises ((a.collect depth s).1 ++ (a.collect depth s).2.remaining settings)
      (s.remaining settings) := by
  fun_induction Advance.collect a depth s with
  | case1 depth s hs => exact Arises.refl _
  | case2 depth s hs hr => exact acc.step (by simpa using hs)
  | case3 depth s hs hr ts s' hc ih =>
    have hk : s.kind.isSeparator = false := by simpa using hs
    rw [hc] at ih
    -- the current token is collected, and the others come from what was ahead of it
    rw [s.remaining_of_not_isSeparator settings hk]
    exact .keep _ (ih.trans (acc s))

theorem isSeparator_of_mem_collect {depth : Nat} {s : Stream} {x : Token}
    (hx : x ∈ (a.collect depth s).1) : x.kind.isSeparator = false := by
  have inv : Invariant a (fun _ => True) := ⟨fun _ _ => trivial, fun _ _ _ _ => trivial⟩
  obtain ⟨u, _, rfl, hk⟩ := inv.mem_collect trivial depth hx
  exact hk

/-- A part of what is collected, chosen anyhow. -/
theorem window (acc : Accounts settings a) {rs ts : List Token} {s : Stream}
    (h : Arises (s.remaining settings) rs) (hts : ts.Sublist (a.collect 0 s).1) :
    Arises (ts ++ (a.collect 0 s).2.remaining settings) rs := by
  have part := Arises.of_sublist hts fun _ hx => isSeparator_of_mem_collect hx
  exact (part.append (Arises.refl _)).trans ((acc.collect 0 s).trans h)

/-- What a call has in front of the feed in the end is in the account as well. -/
theorem resolve (acc : Accounts settings a) (fn : TokenFunction) {rs : List Token} {s : Stream}
    (h : Arises (s.remaining settings) rs) :
    Arises ((a.resolve settings fn s).1.tokens
      ++ (a.resolve settings fn s).2.remaining settings) rs := by
  have inv := acc.invariant rs
  -- without a window, tokens have only been used up
  have plain : (a.resolve settings fn s).1.tokens = [] →
      Arises ((a.resolve settings fn s).1.tokens
        ++ (a.resolve settings fn s).2.remaining settings) rs := by
    intro hn
    rw [hn]
    exact inv.resolve h settings fn
  cases fn with
  | concat =>
    cases ho : (a.resolve settings .concat s).1 with
    | window ts => exact absurd ho (a.join_ne_window settings "" s ts)
    | literal value => rw [← ho]; exact plain (by rw [ho]; rfl)
    | abandoned => rw [← ho]; exact plain (by rw [ho]; rfl)
  | left =>
    have h := inv.rangeArgument h settings 1
    have h := inv.consume h .comma .commaExpected
    exact acc.window h (Window.slice_sublist _ _ _)
  | mid =>
    have h := inv.rangeArgument h settings 0
    have h := inv.consume h .comma .commaExpected
    have h := inv.rangeArgument h settings 1
    have h := inv.consume h .comma .commaExpected
    exact acc.window h (Window.slice_sublist _ _ _)
  | right =>
    have h := inv.rangeArgument h settings 1
    have h := inv.consume h .comma .commaExpected
    exact acc.window h (Window.last_sublist _ _)
  | string =>
    refine plain ?_
    simp only [Advance.resolve]
    split
    · rfl
    · unfold literalAtParen
      split
      · rfl
      · rfl

/-- **A call keeps the account**, whichever way it ends. -/
theorem expand (acc : Accounts settings a) (fn : TokenFunction) {s : Stream}
    (hk : s.kind.isSeparator = false) :
    Arises ((a.expand settings fn s).remaining settings) (s.remaining settings) := by
  have inv := acc.invariant (s.remaining settings)
  have h := inv.consume (acc.step hk) .leftParen .leftParenExpected
  have hr := acc.resolve fn h
  have hm := @Invariant.mem_resolve a _ _ inv h settings fn
  have hp := @Advance.kind_of_resolve a settings fn
  unfold Advance.expand Advance.consumeLeftParen
  simp only
  generalize hx : a.resolve settings fn
    (a.consume .leftParen .leftParenExpected (a s)).2 = x at *
  obtain ⟨o, t⟩ := x
  cases o with
  | literal value =>
    -- the current token is the parenthesis that turns into the constant
    have hpt : t.kind = .rightParen := hp hx
    change Arises (t.remaining settings) _ at hr
    rw [t.remaining_of_not_isSeparator settings (by rw [hpt]; rfl)] at hr
    exact Arises.trans (.relabel value hpt (Arises.refl _)) hr
  | window ts =>
    -- the window and the token behind it are ahead again, as they were in the account
    refine Arises.trans (acc _) ?_
    rw [Stream.ahead_push_current settings (s := t) fun x hx => ?_]
    · exact hr
    · obtain ⟨u, _, rfl, hu⟩ := hm rfl hx
      exact hu
  | abandoned => exact hr

/-- Taking tokens as they are keeps the account. -/
theorem raw : Accounts settings (Advance.raw settings) := by
  intro s
  change Arises ((s.fetch settings).remaining settings) _
  rw [Stream.remaining_fetch]
  exact Arises.refl _

/-- Expanding one level of calls more keeps the account. -/
theorem calling {inner : Unit → Advance} (acc : Accounts settings (inner ())) :
    Accounts settings (Advance.calling settings inner) := by
  intro s
  rw [← Stream.remaining_fetch]
  cases hc : (s.fetch settings).call? with
  | none =>
    have ht : Advance.calling settings inner s = s.fetch settings := by
      simp only [Advance.calling, hc]
    rw [ht]
    exact Arises.refl _
  | some fn =>
    have ht : Advance.calling settings inner s
        = (inner ()).expand settings fn (s.fetch settings) := by
      simp only [Advance.calling, hc]
    rw [ht]
    exact acc.expand fn (by rw [Stream.kind_of_call? hc]; rfl)

theorem within (budget : List Item) : Accounts settings (Advance.within settings budget) := by
  induction budget with
  | nil => exact raw
  | cons _ budget ih => exact calling ih

end Accounts

end Advance

namespace Stream

variable (settings : Settings)

/-- **To advance shows nothing but what was ahead**, and every separator of it. -/
theorem arises_advance (s : Stream) :
    Arises ((s.advance settings).remaining settings) (s.ahead settings) := by
  have acc : Advance.Accounts settings (.calling settings fun _ =>
      .within settings (s.fetch settings).feed.upcoming) :=
    .calling (.within _)
  exact acc s

/-- The tokens that become current from here on, before the end of the input. -/
def shown (s : Stream) : List Token :=
  if _h : s.kind = .eof then [] else s.current :: shown (s.advance settings)
termination_by s.load
decreasing_by exact (Advance.full settings).load_lt _h

/-- What becomes current arises from what remains. -/
theorem arises_shown (s : Stream) : Arises (s.shown settings) (s.remaining settings) := by
  fun_induction shown settings s with
  | case1 s h =>
    rw [remaining, if_pos h]
    exact .nil
  | case2 s h ih =>
    rw [remaining_of_ne settings h]
    exact .keep _ (ih.trans (arises_advance settings s))

end Stream

end AsmExpand
