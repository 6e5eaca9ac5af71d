import AsmExpand.Proofs.Grammar
import AsmExpand.Proofs.Phrase

/-!
# What an argument list holds

A call reads its argument list token by token, each of them possibly made by a call inside
it. So what the list holds is a matter of the tokens that the stream shows, not of those that
were scanned: it is as many of the shown tokens as stand before a separator and before a
parenthesis that closes none of them (`IsArgumentList`). That is a fact about lists of tokens;
`collect` counts depths.

`Advance.collect_inside` is one induction along the reading: the tokens collected are those
shown on the way to the token that ends the list, and none of them ends it. Nothing longer
than that is an argument list, since the token that ends the list would be in it.
`collect_window` says what is collected, what of it a window has, and where the stream is
left.
-/

namespace AsmExpand

/-- Where `depth` parentheses are open, the tokens stay on the line and close no parenthesis
that is not open. -/
structure Inside (depth : Nat) (ts : List Token) : Prop where
  inLine : ∀ t ∈ ts, t.kind.isSeparator = false
  opened : ∀ pre, pre <+: ts → closings pre ≤ depth + openings pre

/-- The argument list at the beginning of `ts`: the longest beginning with no separator in it
and no parenthesis that closes none of it. -/
structure IsArgumentList (ts xs : List Token) : Prop where
  begins : xs <+: ts
  inside : Inside 0 xs
  longest : ∀ ys, ys <+: ts → Inside 0 ys → ys <+: xs

namespace Inside

variable {depth : Nat} {t : Token} {ts : List Token}

theorem nil (depth : Nat) : Inside depth [] := by
  refine ⟨by simp, fun pre hp => ?_⟩
  rw [List.prefix_nil.mp hp]
  exact Nat.zero_le _

theorem cons (hk : t.kind.isSeparator = false) (hc : ¬(t.kind = .rightParen ∧ depth = 0))
    (h : Inside (Advance.parensAfter depth t.kind) ts) : Inside depth (t :: ts) := by
  refine ⟨List.forall_mem_cons.mpr ⟨hk, h.inLine⟩, fun pre hp => ?_⟩
  cases pre with
  | nil => exact Nat.zero_le _
  | cons u us =>
    obtain ⟨rfl, hus⟩ := List.cons_prefix_cons.mp hp
    have hd := parensAfter_add hc
    have ho := h.opened us hus
    rw [closings_cons, openings_cons]
    omega

/-- A separator and a parenthesis that closes nothing are not inside. -/
theorem not_append (ht : t.kind.isSeparator = true ∨
    t.kind = .rightParen ∧ closings ts = depth + openings ts) : ¬Inside depth (ts ++ [t]) := by
  intro h
  rcases ht with ht | ⟨hk, hc⟩
  · have := h.inLine t (by simp)
    rw [ht] at this
    cases this
  · have ho := h.opened _ List.prefix_rfl
    have hone : closings (ts ++ [t]) = closings ts + 1 ∧ openings (ts ++ [t]) = openings ts := by
      simp [closings, openings, hk]
    omega

/-- What is inside a list up to a token that ends it cannot go on. -/
theorem isArgumentList {rest : List Token} (h : Inside 0 ts)
    (hrest : ∀ t us, rest = t :: us →
      t.kind.isSeparator = true ∨ t.kind = .rightParen ∧ closings ts = 0 + openings ts) :
    IsArgumentList (ts ++ rest) ts := by
  refine ⟨List.prefix_append ts rest, h, fun ys hys hin => ?_⟩
  rcases List.prefix_or_prefix_of_prefix hys (List.prefix_append ts rest) with hp | ⟨us, rfl⟩
  · exact hp
  · -- something longer would have the token that ends the list
    have hus := (List.prefix_append_right_inj ts).mp hys
    cases us with
    | nil => simp
    | cons t us =>
      obtain ⟨vs, hvs⟩ := hus
      have hend : Inside 0 (ts ++ [t]) := by
        refine ⟨fun x hx => hin.inLine x ?_, fun pre hp => hin.opened pre (hp.trans ?_)⟩
        · exact List.mem_append.mpr ((List.mem_append.mp hx).imp_right fun hx => by
            rw [List.mem_singleton.mp hx]
            exact List.mem_cons_self)
        · exact ⟨us, by simp⟩
      exact absurd hend (not_append (hrest t (us ++ vs) hvs.symm))

end Inside

namespace Window

/-- The places of a window, in a list whose first place is `first`. -/
theorem filter_zipIdx (start count first : Nat) (ts : List Token) :
    ((ts.zipIdx first).filter fun p => decide (start ≤ p.2 ∧ p.2 < start + count)).map Prod.fst
      = (ts.drop (start - first)).take (start + count - max start first) := by
  induction ts generalizing first with
  | nil => simp
  | cons t ts ih =>
    rw [List.zipIdx_cons, List.filter_cons]
    rcases Nat.lt_or_ge first start with hlt | hge
    · have hdrop : start - first = start - (first + 1) + 1 := by omega
      have hmax : max start first = max start (first + 1) := by omega
      rw [if_neg (by simp; omega), ih, hdrop, hmax, List.drop_succ_cons]
    · have hdrop : start - first = 0 ∧ start - (first + 1) = 0 := by omega
      have hmax : max start first = first ∧ max start (first + 1) = first + 1 := by omega
      rw [hdrop.1, hmax.1, List.drop_zero]
      rcases Nat.lt_or_ge first (start + count) with hin | hout
      · have hcount : start + count - first = start + count - (first + 1) + 1 := by omega
        rw [if_pos (by simp; omega), List.map_cons, ih, hdrop.2, hmax.2, List.drop_zero, hcount,
          List.take_succ_cons]
      · have hcount : start + count - first = 0 ∧ start + count - (first + 1) = 0 := by omega
        rw [if_neg (by simp; omega), ih, hmax.2, hcount.1, hcount.2, List.take_zero, List.take_zero]

/-- **A window has the tokens whose places in the list are in it.** -/
theorem slice_eq_filter (start count : Nat) (ts : List Token) :
    slice start count ts
      = (ts.zipIdx.filter fun p => decide (start ≤ p.2 ∧ p.2 < start + count)).map Prod.fst := by
  rw [filter_zipIdx, slice, Nat.max_eq_left (Nat.zero_le _), Nat.add_sub_cancel_left,
    Nat.sub_zero]

/-- The last tokens of a list end it, and are as many as were asked for if there are. -/
theorem last_spec (count : Nat) (ts : List Token) :
    last count ts <:+ ts ∧ (last count ts).length = min count ts.length := by
  refine ⟨List.drop_suffix _ _, ?_⟩
  rw [last, List.length_drop]
  omega

end Window

namespace Advance

/-- **What is collected is shown on the way to the end of the list**, and is inside it. The
parenthesis that ends the list is passed; a separator that does is reported and stays. -/
theorem collect_inside (a : Advance) (depth : Nat) (s : Stream) :
    let r := a.collect depth s
    ∃ t, a.Shows s r.1 t ∧ Inside depth r.1 ∧
      (t.kind.isSeparator = true ∧ r.2 = t.report .unexpectedEndOfLine ∨
        t.kind = .rightParen ∧ closings r.1 = depth + openings r.1 ∧ r.2 = a t) := by
  fun_induction collect a depth s with
  | case1 depth s hs => exact ⟨s, .here s, .nil depth, Or.inl ⟨hs, rfl⟩⟩
  | case2 depth s hs hr =>
    obtain ⟨hk, rfl⟩ := hr
    exact ⟨s, .here s, .nil 0, Or.inr ⟨hk, rfl, rfl⟩⟩
  | case3 depth s hs hr ts s' hc ih =>
    rw [hc] at ih
    obtain ⟨t, hshows, hin, hend⟩ := ih
    dsimp only at hend ⊢
    refine ⟨t, .step hshows, .cons (Bool.not_eq_true _ ▸ hs) hr hin, ?_⟩
    refine hend.imp_right ?_
    rintro ⟨hk, hclosed, he⟩
    refine ⟨hk, ?_, he⟩
    have hd := parensAfter_add hr
    rw [closings_cons, openings_cons, show s.current.kind = s.kind from rfl]
    omega

end Advance

namespace Stream

variable (settings : Settings)

/-- What is shown on the way to a stream, and from there on. -/
theorem shown_of_shows {s t : Stream} {ts : List Token}
    (h : (Advance.full settings).Shows s ts t) (hts : ∀ x ∈ ts, x.kind ≠ .eof) :
    s.shown settings = ts ++ t.shown settings := by
  induction h with
  | here => rfl
  | @step s t ts h ih =>
    have hk : s.kind ≠ .eof := hts _ List.mem_cons_self
    rw [shown, dif_neg hk, List.cons_append]
    exact congrArg _ (ih fun x hx => hts x (List.mem_cons_of_mem _ hx))

/-- **What an argument list is collected to**, whatever is left of the input and whichever way
the list ends. The tokens collected are the argument list of the tokens that the stream
shows, and a window of them has those whose places are in it. A parenthesis that ends the list
is passed, and the stream shows what it shows behind the parenthesis. A separator that ends the
list is reported, once and in its place, and stays current; nothing else is reported but what
comes up on the way. `.RIGHT` has the last tokens of its list. -/
theorem collect_window (settings : Settings) (s : Stream) (start count : Nat) :
    let a := Advance.full settings
    let r := a.collect 0 s
    IsArgumentList (s.shown settings) r.1 ∧
    Window.slice start count r.1
      = (r.1.zipIdx.filter fun p => decide (start ≤ p.2 ∧ p.2 < start + count)).map Prod.fst ∧
    (∃ t, a.Shows s r.1 t ∧
      (t.kind = .rightParen ∧ s.shown settings = r.1 ++ t.current :: r.2.shown settings ∧
          r.2 = t.advance settings ∨
        t.kind.isSeparator = true ∧ s.shown settings = r.1 ++ t.shown settings ∧
          r.2 = t.report .unexpectedEndOfLine ∧ r.2.current = t.current ∧
          r.2.log = t.log.push { span := t.current.span, cause := .unexpectedEndOfLine })) ∧
    ∀ u, let n := a.rangeArgument settings 1 u
      let r := a.collect 0 (a.consumeComma n.2).2
      ∃ ts, a.resolve settings .right u = (.window ts, r.2) ∧ ts <:+ r.1 ∧
        ts.length = min n.1 r.1.length := by
  intro a r
  obtain ⟨t, hshows, hin, hend⟩ := a.collect_inside 0 s
  have hshown : s.shown settings = r.1 ++ t.shown settings :=
    shown_of_shows settings hshows fun x hx => Kind.ne_of_isSeparator (hin.inLine x hx) rfl
  refine ⟨?_, Window.slice_eq_filter start count r.1, ⟨t, hshows, ?_⟩, fun u => ?_⟩
  · -- the first token behind the list is the one that it ends at
    rw [hshown]
    refine hin.isArgumentList fun x xs hx => ?_
    rw [shown] at hx
    split at hx
    · cases hx
    · obtain ⟨rfl, _⟩ := List.cons.inj hx
      exact hend.imp And.left fun h => ⟨h.1, h.2.1⟩
  · rcases hend with ⟨hk, he⟩ | ⟨hk, _, he⟩
    · refine Or.inr ⟨hk, hshown, he, ?_, ?_⟩
      · rw [show r.2 = _ from he]
        rfl
      · rw [show r.2 = _ from he]
        rfl
    · refine Or.inl ⟨hk, ?_, he⟩
      rw [hshown, shown, dif_neg (by rw [hk]; simp), show r.2 = _ from he]
      rfl
  · intro n r
    obtain ⟨hsuffix, hlength⟩ := Window.last_spec n.1 r.1
    exact ⟨_, rfl, hsuffix, hlength⟩

end Stream

end AsmExpand
