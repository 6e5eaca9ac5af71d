import AsmExpand.Listing.Statement
import AsmExpand.Proofs.Conservation
import AsmExpand.Proofs.Scanning

/-!
# Places in lines

The scanner moves to the right on a line and downwards from line to line, so the
tokens it delivers are placed like text (`Placed`): on the same line further to
the right, or behind a separator and on the next line. Leaving out tokens that
are no separators keeps this, and so does turning a parenthesis into a constant
at its place (`Placed.of_arises`). The tokens that a stream shows arise from the
scanned ones in just this way, and its statements end at the separators. So the
lines of an expansion have their tokens on one line and from left to right, and
follow each other downwards (`inOrder_expandSource`).

`expansion_conserves` puts this together with the account of what is shown.
-/

namespace AsmExpand

/-- Tokens from a line and a column on, placed like text. -/
def Placed : Nat → Nat → List Token → Prop
  | _, _, [] => True
  | line, column, t :: ts =>
    t.span.line = line ∧ column ≤ t.span.colStart ∧
      if t.kind = .sep then Placed (line + 1) 1 ts else Placed line (t.span.colStart + 1) ts

namespace Placed

variable {line column : Nat} {ts us : List Token}

theorem mono {column' : Nat} (h : Placed line column ts) (hc : column' ≤ column) :
    Placed line column' ts := by
  cases ts with
  | nil => trivial
  | cons t ts => exact ⟨h.1, Nat.le_trans hc h.2.1, h.2.2⟩

/-- Behind a separator the next line begins. -/
theorem of_sep {t : Token} (h : Placed line column (t :: ts)) (hk : t.kind = .sep) :
    Placed (line + 1) 1 ts := by
  have := h.2.2
  rwa [if_pos hk] at this

theorem of_ne {t : Token} (h : Placed line column (t :: ts)) (hk : t.kind ≠ .sep) :
    Placed line (t.span.colStart + 1) ts := by
  have := h.2.2
  rwa [if_neg hk] at this

/-- The first of placed tokens are placed. -/
theorem of_prefix (hp : ts <+: us) (h : Placed line column us) : Placed line column ts := by
  obtain ⟨rest, rfl⟩ := hp
  induction ts generalizing line column with
  | nil => trivial
  | cons t ts ih =>
    rw [List.cons_append] at h
    refine ⟨h.1, h.2.1, ?_⟩
    by_cases hk : t.kind = .sep
    · rw [if_pos hk]
      exact ih (h.of_sep hk)
    · rw [if_neg hk]
      exact ih (h.of_ne hk)

/-- What arises from placed tokens is placed. -/
theorem of_arises (ha : Arises ts us) (h : Placed line column us) : Placed line column ts := by
  induction ha generalizing line column with
  | nil => trivial
  | @drop t vs rs hk _ ih =>
    have hne : t.kind ≠ .sep := Kind.ne_of_isSeparator hk rfl
    have h1 := h.2.1
    exact (ih (h.of_ne hne)).mono (by omega)
  | @keep t vs rs _ ih =>
    refine ⟨h.1, h.2.1, ?_⟩
    by_cases hk : t.kind = .sep
    · rw [if_pos hk]
      exact ih (h.of_sep hk)
    · rw [if_neg hk]
      exact ih (h.of_ne hk)
  | @relabel t vs rs value hp _ ih =>
    refine ⟨h.1, h.2.1, ?_⟩
    rw [if_neg (by simp [Token.ofText])]
    exact ih (h.of_ne (by simp [hp]))

/-- The tokens of a line stand on it from left to right. -/
theorem of_append (h : Placed line column (ts ++ us)) (hts : ∀ t ∈ ts, t.kind ≠ .sep) :
    (∀ t ∈ ts, t.span.line = line ∧ column ≤ t.span.colStart) ∧
      ts.Pairwise (fun t u => t.span.colStart < u.span.colStart) ∧
      ∃ column', Placed line column' us := by
  induction ts generalizing column with
  | nil => exact ⟨by simp, .nil, column, h⟩
  | cons t ts ih =>
    have hne := hts t List.mem_cons_self
    rw [List.cons_append] at h
    obtain ⟨hon, hpair, hrest⟩ := ih (h.of_ne hne) fun x hx => hts x (List.mem_cons_of_mem _ hx)
    have hcol := h.2.1
    refine ⟨?_, ?_, hrest⟩
    · intro x hx
      rcases List.mem_cons.mp hx with rfl | hx
      · exact ⟨h.1, hcol⟩
      · have := hon x hx
        exact ⟨this.1, by omega⟩
    · refine List.pairwise_cons.mpr ⟨?_, hpair⟩
      intro x hx
      have := (hon x hx).2
      omega

end Placed

/-! ## The scanned tokens -/

/-- **The tokens of a scan are placed like text.** -/
theorem placed_items (limit : Nat) (c : Cursor) :
    Placed c.line c.column (Feed.scanned limit c.items) := by
  cases h : c.skipGap.rest with
  | nil =>
    rw [Cursor.items_of_nil h]
    trivial
  | cons b rest =>
    have := Cursor.length_item_skipGap_lt h
    have ih := placed_items limit (c.skipGap.item b rest).2
    have hline : c.skipGap.line = c.line := rfl
    have hcol : c.column ≤ c.skipGap.column := Nat.le_add_right _ _
    rw [Cursor.items_of_cons h]
    generalize c.skipGap = d at *
    rcases d.item_cases b rest with ⟨_, hi⟩ | ⟨_, ⟨k, l, hk, hi⟩ | ⟨f, hi⟩⟩
    -- behind a newline the next line begins
    · rw [hi] at ih ⊢
      refine ⟨hline, hcol, ?_⟩
      rw [Feed.kind_checked, if_pos rfl, ← hline]
      exact ih
    -- behind a lexeme the line goes on to the right of it
    · rw [hi] at ih ⊢
      have hne : k ≠ .sep := Kind.ne_of_isSeparator hk rfl
      refine ⟨?_, ?_, ?_⟩
      · rw [Feed.span_checked]
        exact hline
      · rw [Feed.span_checked]
        exact hcol
      · rw [Feed.kind_checked, if_neg hne, Feed.span_checked, ← hline]
        refine ih.mono ?_
        simp only [Cursor.span, Cursor.skip, Lexeme.width]
        omega
    -- a fault shows no token, and takes room all the same
    · rw [hi] at ih ⊢
      rw [← hline]
      refine ih.mono ?_
      simp only [Cursor.skip]
      omega
termination_by c.rest.length

/-- A source is placed like text. -/
theorem placed_ofSource (limit : Nat) (source : String) :
    Placed 1 1 ((⟨[], .ofSource source⟩ : Feed).delivered limit) := by
  have hp := placed_items limit (Cursor.ofSource source)
  rw [Feed.delivered_eq, Scan.ofSource_eq]
  exact hp.of_prefix (List.takeWhile_prefix _)

/-! ## The lines of an expansion -/

/-- Lines that follow each other downwards, each with its tokens on it from left to
right. -/
structure InOrder (lines : List Line) : Prop where
  downwards : lines.Pairwise (fun l m => l.line < m.line)
  on : ∀ l ∈ lines, ∀ t ∈ l.tokens, t.span.line = l.line
  rightwards : ∀ l ∈ lines, l.tokens.Pairwise (fun t u => t.span.colStart < u.span.colStart)

/-- Lines in order, all above line `n`. -/
structure InOrderAbove (n : Nat) (lines : Array Line) : Prop where
  inOrder : InOrder lines.toList
  above : ∀ l ∈ lines.toList, l.line < n

theorem inOrderAbove_empty (n : Nat) : InOrderAbove n #[] :=
  ⟨⟨.nil, by simp, by simp⟩, by simp⟩

theorem InOrderAbove.mono {n m : Nat} {lines : Array Line} (h : InOrderAbove n lines) (hn : n ≤ m) :
    InOrderAbove m lines :=
  ⟨h.inOrder, fun l hl => Nat.lt_of_lt_of_le (h.above l hl) hn⟩

theorem InOrderAbove.push {n : Nat} {lines : Array Line} (h : InOrderAbove n lines) {l : Line}
    (hl : l.line = n) (hon : ∀ t ∈ l.tokens, t.span.line = l.line)
    (hright : l.tokens.Pairwise (fun t u => t.span.colStart < u.span.colStart)) :
    InOrderAbove (n + 1) (lines.push l) := by
  have hmem : ∀ m ∈ (lines.push l).toList, m ∈ lines.toList ∨ m = l := by
    intro m hm
    simpa using hm
  refine ⟨⟨?_, ?_, ?_⟩, ?_⟩
  · rw [Array.toList_push, List.pairwise_append]
    refine ⟨h.inOrder.downwards, List.pairwise_singleton _ _, ?_⟩
    intro m hm k hk
    rw [List.mem_singleton.mp hk, hl]
    exact h.above m hm
  · intro m hm
    rcases hmem m hm with hm | rfl
    · exact h.inOrder.on m hm
    · exact hon
  · intro m hm
    rcases hmem m hm with hm | rfl
    · exact h.inOrder.rightwards m hm
    · exact hright
  · intro m hm
    rcases hmem m hm with hm | rfl
    · exact Nat.lt_succ_of_lt (h.above m hm)
    · omega

namespace Stream

variable (settings : Settings)

/-- The tokens of a statement, and what remains behind it, arise from what remained. -/
theorem arises_statement (s : Stream) :
    Arises ((s.statement settings).1 ++ (s.statement settings).2.remaining settings)
      (s.remaining settings) := by
  fun_induction statement settings s with
  | case1 s h => exact Arises.refl _
  | case2 s h ts s' hs ih =>
    rw [hs] at ih
    rw [s.remaining_of_not_isSeparator settings (by simpa using h)]
    exact .keep _ (ih.trans (arises_advance settings s))

theorem not_isSeparator_of_mem_statement {s : Stream} {t : Token}
    (h : t ∈ (s.statement settings).1) : t.kind.isSeparator = false := by
  fun_induction statement settings s with
  | case1 => cases h
  | case2 s hk ts s' hs ih =>
    rw [hs] at ih
    rcases List.mem_cons.mp h with rfl | h
    · simpa [kind] using hk
    · exact ih h

/-- The first token of a statement is the one that was current. -/
theorem current_eq_of_statement {s : Stream} {t : Token} {ts : List Token}
    (h : (s.statement settings).1 = t :: ts) : t = s.current := by
  rw [statement] at h
  split at h
  · cases h
  · exact (List.cons.inj h).1.symm

/-- Behind a statement the next line begins, if any does. -/
theorem placed_consumeSeparator {s : Stream} {line column : Nat}
    (hk : s.kind.isSeparator = true) (hp : Placed line column (s.remaining settings)) :
    ∃ column', Placed (line + 1) column' ((s.consumeSeparator settings).remaining settings) := by
  unfold consumeSeparator Advance.consumeSeparator
  rcases s.kind.isSeparator_iff.mp hk with he | he
  · rw [he]
    rw [s.remaining_of_ne settings (by rw [he]; simp)] at hp
    exact ⟨1, (hp.of_sep he).of_arises (arises_advance settings s)⟩
  · rw [he]
    dsimp only
    rw [remaining, if_pos he]
    exact ⟨0, trivial⟩

/-- **One statement more keeps the lines in order.** -/
theorem inOrderAbove_addLine {lines : Array Line} {s : Stream} {line column : Nat}
    (h : InOrderAbove line lines) (hp : Placed line column (s.remaining settings)) :
    InOrderAbove (line + 1) (addLine lines s (s.statement settings).1) ∧
      ∃ column', Placed line column' ((s.statement settings).2.remaining settings) := by
  have hplaced := hp.of_arises (arises_statement settings s)
  obtain ⟨hon, hpair, hrest⟩ := hplaced.of_append fun t ht =>
    Kind.ne_of_isSeparator (not_isSeparator_of_mem_statement settings ht) rfl
  refine ⟨?_, hrest⟩
  unfold addLine
  split
  · exact h.mono (Nat.le_succ line)
  · rename_i hne
    -- the line is that of the first token, and so of all of them
    have hfirst : s.current.span.line = line := by
      cases hts : (s.statement settings).1 with
      | nil => simp [hts] at hne
      | cons t ts =>
        rw [← current_eq_of_statement settings hts]
        exact (hon t (by rw [hts]; exact List.mem_cons_self)).1
    refine h.push hfirst ?_ hpair
    intro t ht
    rw [(hon t ht).1]
    exact hfirst.symm

theorem remaining_openBlock (s : Stream) :
    s.openBlock.remaining settings = s.remaining settings := by
  unfold openBlock
  split
  · rfl
  · rfl

theorem remaining_closeBlock (start s : Stream) :
    (closeBlock start s).remaining settings = s.remaining settings := by
  unfold closeBlock
  split
  · rfl
  · rfl

theorem inOrderAbove_readLines {lines : Array Line} {s : Stream} {line column : Nat}
    (h : InOrderAbove line lines) (hp : Placed line column (s.remaining settings)) :
    ∃ n, InOrderAbove n (s.readLines settings lines).1 := by
  fun_induction readLines settings lines s generalizing line column with
  | case1 lines s _ => exact ⟨line, h⟩
  | case2 lines s _ start =>
    rename_i r ih
    rw [← remaining_openBlock settings s] at hp
    obtain ⟨hl, column', hr⟩ := inOrderAbove_addLine settings h hp
    rw [← remaining_closeBlock settings s.openBlock] at hr
    obtain ⟨column'', hc⟩ := placed_consumeSeparator settings (by
      rw [kind_closeBlock]
      exact isSeparator_statement settings s.openBlock) hr
    exact ih hl hc

theorem inOrderAbove_readFlatLines {lines : Array Line} {s : Stream} {line column : Nat}
    (h : InOrderAbove line lines) (hp : Placed line column (s.remaining settings)) :
    ∃ n, InOrderAbove n (s.readFlatLines settings lines).1 := by
  fun_induction readFlatLines settings lines s generalizing line column with
  | case1 lines s _ => exact ⟨line, h⟩
  | case2 lines s _ r =>
    rename_i ih
    obtain ⟨hl, column', hr⟩ := inOrderAbove_addLine settings h hp
    obtain ⟨column'', hc⟩ :=
      placed_consumeSeparator settings (isSeparator_statement settings s) hr
    exact ih hl hc

theorem placed_advance (source : String) {s : Stream} (hs : s.feed = ⟨[], .ofSource source⟩) :
    Placed 1 1 ((s.advance settings).remaining settings) := by
  refine Placed.of_arises (arises_advance settings s) ?_
  rw [ahead, hs]
  exact placed_ofSource _ source

end Stream

theorem inOrder_expandSource (settings : Settings) (source : String) :
    InOrder (expandSource settings source).lines := by
  obtain ⟨n, hn⟩ := Stream.inOrderAbove_readLines settings (inOrderAbove_empty 1)
    (Stream.placed_advance settings source (s := Stream.ofSource source) rfl)
  exact hn.inOrder

theorem inOrder_expandSourceRaw (limits : Limits) (source : String) :
    InOrder (expandSourceRaw limits source).lines := by
  obtain ⟨n, hn⟩ := Stream.inOrderAbove_readFlatLines { limits := limits } (inOrderAbove_empty 1)
    (Stream.placed_advance { limits := limits } source (s := (Stream.ofSource source).enterRaw) rfl)
  exact hn.inOrder

/-- **Expansion conserves tokens.** What becomes current from a scan on arises from
what the scan delivers: a part of it in the same order, each token as it was or a
closing parenthesis made a string constant at its place, and all separators are
there. So the lines of a source follow each other downwards, and the tokens of each
stand on it from left to right. With lines counted in 32 bits, this is about sources of
fewer than 2^32 lines. -/
theorem expansion_conserves (settings : Settings) :
    (∀ scan : Scan,
      let delivered := (⟨[], scan⟩ : Feed).delivered settings.limits.maxStringLength
      let visible := ((Stream.ofScan scan).advance settings).shown settings
      (∃ kept, kept.Sublist delivered ∧
        List.Forall₂
          (fun k v => v = k ∨ k.kind = .rightParen ∧ ∃ value, v = .ofText value k.span)
          kept visible) ∧
      visible.filter (fun t => decide (t.kind = .sep))
        = delivered.filter (fun t => decide (t.kind = .sep))) ∧
    ∀ source : String, InOrder (expandSource settings source).lines ∧
      InOrder (expandSourceRaw settings.limits source).lines := by
  refine ⟨?_, fun source => ⟨inOrder_expandSource settings source,
    inOrder_expandSourceRaw settings.limits source⟩⟩
  intro scan delivered visible
  -- the first advance, and then all the others
  have h : Arises visible delivered :=
    (Stream.arises_shown settings _).trans (Stream.arises_advance settings (Stream.ofScan scan))
  exact ⟨h.exists_sublist, h.filter_sep⟩

end AsmExpand
