import AsmExpand.Listing.Statement
import AsmExpand.Proofs.Lockstep

/-!
# Statements in step

The readers of a simulation all stay inside a line, and so does reading a statement
(`Simulation.statement`). A source is read by statements, between which macro blocks are
opened and closed, and that changes the raw depth. A `BlockSimulation` relates streams of
the same raw depth and bears changing it on both sides, so blocks open and close on both
sides alike. A `SourceSimulation` lasts behind the ends of lines and bears the report of
open blocks as well, so both sides read the same lines (`SourceSimulation.readLines`).
-/

namespace AsmExpand

/-- Reading a statement keeps an invariant, and each of its tokens was current under it. -/
theorem Invariant.statement {settings : Settings} {P : Stream → Prop} {s : Stream}
    (inv : Invariant (Advance.full settings) P) (h : P s) :
    P (s.statement settings).2 ∧
      ∀ t ∈ (s.statement settings).1, ∃ u, P u ∧ u.current = t ∧ u.kind.isSeparator = false := by
  fun_induction Stream.statement settings s with
  | case1 s hs => exact ⟨h, by simp⟩
  | case2 s hs ts s' hr ih =>
    have hk : s.kind.isSeparator = false := by simpa using hs
    have hrest := ih (inv.step h hk)
    rw [hr] at hrest
    refine ⟨hrest.1, fun t ht => ?_⟩
    rcases List.mem_cons.mp ht with rfl | ht
    · exact ⟨s, h, rfl, hk⟩
    · exact hrest.2 t ht

/-- What is kept by one token is kept behind the end of a statement, if it lasts there. -/
theorem Upkeep.consumeSeparator {settings : Settings} {Q R : Stream → Prop}
    (keep : Upkeep settings Q R) {s : Stream} (h : R s) (hk : s.kind.isSeparator = true)
    (cross : s.kind = .sep → Q s) : R (s.consumeSeparator settings) := by
  rcases s.kind.isSeparator_iff.mp hk with hk | hk
  · rw [Stream.consumeSeparator_of_sep settings hk]
    exact keep.advance (cross hk)
  · rw [Stream.consumeSeparator_of_eof settings hk]
    exact h

namespace Simulation

variable {f : Span → Span} {σ τ : Settings} {R : Stream → Stream → Prop} {s t : Stream}

/-- **Both sides read the same statement** and stop at its end. -/
theorem statement (sim : Simulation f (Advance.full σ) (Advance.full τ) R) (h : R s t) :
    (t.statement τ).1 = (s.statement σ).1.map (Token.mapSpan f) ∧
      R (s.statement σ).2 (t.statement τ).2 := by
  fun_induction Stream.statement σ s generalizing t with
  | case1 s hs =>
    rw [Stream.statement, dif_pos (by rwa [sim.kind h])]
    exact ⟨rfl, h⟩
  | case2 s hs ts s' hr ih =>
    rw [Stream.statement, dif_neg (by rwa [sim.kind h])]
    have := ih (sim.step h (by simpa using hs))
    rw [hr] at this
    exact ⟨by simp [← this.1, sim.current h, Advance.full], this.2⟩

/-- Both sides go past the end of a statement, if the relation lasts there too. -/
theorem consumeSeparator (sim : Simulation f (Advance.full σ) (Advance.full τ) R)
    (cross : ∀ {s t}, R s t → s.kind = .sep → R (s.advance σ) (t.advance τ)) (h : R s t) :
    R (s.consumeSeparator σ) (t.consumeSeparator τ) := by
  unfold Stream.consumeSeparator Advance.consumeSeparator
  rw [sim.kind h]
  split
  · exact h
  · rename_i hk
    exact cross h hk
  · exact sim.skipToSeparator (sim.reportHere h _)

end Simulation

namespace Stream

variable (settings : Settings)

/-- The stream at the end of the statement it is at, the block opened or closed that the
statement opens or closes. -/
def passStatement (s : Stream) : Stream :=
  closeBlock s.openBlock (s.openBlock.statement settings).2

theorem isSeparator_passStatement (s : Stream) :
    (s.passStatement settings).kind.isSeparator = true := by
  rw [passStatement, kind_closeBlock]
  exact isSeparator_statement settings _

/-- **What every statement keeps holds at the end of a source**, where open blocks are
reported. -/
theorem exists_readLines_eq {P : Stream → Prop}
    (keep : ∀ {s : Stream}, P s → s.kind ≠ .eof →
      P ((s.passStatement settings).consumeSeparator settings))
    {s : Stream} (h : P s) (lines : Array Line) :
    ∃ u, P u ∧ u.kind = .eof ∧
      (s.readLines settings lines).2 = reportOpenBlocks u.rawDepth u := by
  fun_induction readLines settings lines s with
  | case1 lines s hs => exact ⟨s, h, hs, rfl⟩
  | case2 lines s hs start r ih => exact ih (keep h hs)

end Stream

/-- A simulation of streams at the same raw depth, whichever that is. -/
structure BlockSimulation (f : Span → Span) (settings : Settings) (R : Stream → Stream → Prop) :
    Prop extends Simulation f (Advance.full settings) (Advance.full settings) R where
  rawDepth : ∀ {s t}, R s t → t.rawDepth = s.rawDepth
  setRawDepth : ∀ {s t}, R s t → ∀ n, R { s with rawDepth := n } { t with rawDepth := n }

namespace BlockSimulation

variable {f : Span → Span} {settings : Settings} {R : Stream → Stream → Prop} {s t : Stream}

theorem isRaw (sim : BlockSimulation f settings R) (h : R s t) : t.isRaw = s.isRaw := by
  rw [Stream.isRaw, sim.rawDepth h]
  rfl

theorem openBlock (sim : BlockSimulation f settings R) (h : R s t) :
    R s.openBlock t.openBlock := by
  unfold Stream.openBlock Stream.enterRaw
  rw [sim.kind h, sim.rawDepth h]
  by_cases hk : s.kind = .macroStart
  · rw [if_pos hk, if_pos hk]
    exact sim.setRawDepth h _
  · rw [if_neg hk, if_neg hk]
    exact h

theorem closeBlock (sim : BlockSimulation f settings R) {s₀ t₀ : Stream} (h₀ : R s₀ t₀)
    (h : R s t) : R (Stream.closeBlock s₀ s) (Stream.closeBlock t₀ t) := by
  unfold Stream.closeBlock Stream.leaveRaw
  rw [sim.isRaw h₀, sim.kind h₀, sim.rawDepth h]
  by_cases hk : s₀.isRaw ∧ s₀.kind = .macroEnd
  · rw [if_pos hk, if_pos hk]
    exact sim.setRawDepth h _
  · rw [if_neg hk, if_neg hk]
    exact h

theorem passStatement (sim : BlockSimulation f settings R) (h : R s t) :
    R (s.passStatement settings) (t.passStatement settings) := by
  have hstart := sim.openBlock h
  exact sim.closeBlock hstart (sim.statement hstart).2

end BlockSimulation

/-- A line with the places of its tokens mapped. -/
def Line.mapSpan (f : Span → Span) (l : Line) : Line :=
  { l with tokens := l.tokens.map (Token.mapSpan f) }

/-- A simulation, on the same lines, that lasts to the end of a source. -/
structure SourceSimulation (f : Span → Span) (settings : Settings) (R : Stream → Stream → Prop) :
    Prop extends BlockSimulation f settings R where
  line : ∀ span, (f span).line = span.line
  cross : ∀ {s t}, R s t → s.kind = .sep → R (s.advance settings) (t.advance settings)
  unclosed : ∀ {s t}, R s t → R (s.report .unclosedBlock) (t.report .unclosedBlock)

namespace SourceSimulation

variable {f : Span → Span} {settings : Settings} {R : Stream → Stream → Prop} {s t : Stream}

theorem addLine (sim : SourceSimulation f settings R) (h : R s t) (lines : Array Line)
    (ts : List Token) :
    Stream.addLine (lines.map (Line.mapSpan f)) t (ts.map (Token.mapSpan f))
      = (Stream.addLine lines s ts).map (Line.mapSpan f) := by
  unfold Stream.addLine
  rw [List.isEmpty_map, sim.isRaw h, sim.span h, sim.line]
  split
  · rfl
  · simp [Line.mapSpan]

theorem reportOpenBlocks (sim : SourceSimulation f settings R) (h : R s t) (n : Nat) :
    R (Stream.reportOpenBlocks n s) (Stream.reportOpenBlocks n t) := by
  induction n generalizing s t with
  | zero => exact h
  | succ n ih => exact ih (sim.unclosed h)

/-- **Both sides read the same lines**, and stop at the end of the source. -/
theorem readLines (sim : SourceSimulation f settings R) (h : R s t) (lines : Array Line) :
    (t.readLines settings (lines.map (Line.mapSpan f))).1
        = (s.readLines settings lines).1.map (Line.mapSpan f) ∧
      R (s.readLines settings lines).2
        (t.readLines settings (lines.map (Line.mapSpan f))).2 := by
  fun_induction Stream.readLines settings lines s generalizing t with
  | case1 lines s hs =>
    rw [Stream.readLines, dif_pos (by rwa [sim.kind h]), sim.rawDepth h]
    exact ⟨rfl, sim.reportOpenBlocks h s.rawDepth⟩
  | case2 lines s hs start =>
    rename_i r ih
    rw [Stream.readLines, dif_neg (by rwa [sim.kind h])]
    have hstart := sim.openBlock h
    obtain ⟨htokens, hr⟩ := sim.statement hstart
    dsimp only
    rw [htokens, sim.addLine hstart]
    exact ih (sim.consumeSeparator sim.cross (sim.closeBlock hstart hr))

end SourceSimulation

end AsmExpand
