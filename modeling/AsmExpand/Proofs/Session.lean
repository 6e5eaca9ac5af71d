import AsmExpand.Proofs.Lockstep
import AsmExpand.Stream.Operation

/-!
# Sessions

A session is any sequence of operations on a stream. Seen closely, every
operation is made of moves: going to the next token, reporting, pushing a list,
entering raw mode and leaving it. Which of them an operation makes depends on
the tokens it meets, and a reader such as an expression may make many.

`Session` is a stream with a ghost beside it: the raw depth at which it was last
advanced. Moves keep the ghost up to date, and one invariant is enough: a stream
that was last advanced outside raw mode does not show a function token. It holds
because an advance outside raw mode never stops at such a token
(`call?_advance`), whichever way the calls on its path have ended, and because
nothing but an advance changes the current token.

Guards are opened up first: a guard enters raw mode, does its operations, and
leaves it. So a point inside a guard is a point between two plain operations.

`depth_and_dispatch` puts this together for all sessions.
-/

namespace AsmExpand

/-! ## Advancing keeps the raw depth and expands what it meets -/

namespace Stream

variable (settings : Settings)

/-- Whatever is read, the raw depth stays, and no token is current that is to be expanded. -/
theorem dispatch_upkeep (depth : Nat) :
    Upkeep settings (fun s => s.rawDepth = depth)
      (fun s => s.rawDepth = depth ∧ s.call? = none) where
  take := fun hd hc => ⟨hd, hc⟩
  call := fun hd _ => hd
  ahead := fun h _ => h.1
  report := fun h _ _ _ => h
  -- a constant calls nothing
  literal := fun h _ _ _ => ⟨h.1, call?_of_function?_eq_none rfl⟩
  window := fun h _ _ => h.1

@[simp] theorem rawDepth_advance (s : Stream) : (s.advance settings).rawDepth = s.rawDepth :=
  ((dispatch_upkeep settings s.rawDepth).advance rfl).1

/-- **An advance never stops at a token that it should have expanded.** -/
theorem call?_advance (s : Stream) : (s.advance settings).call? = none :=
  ((dispatch_upkeep settings s.rawDepth).advance rfl).2

theorem function?_advance {s : Stream} (h : s.rawDepth = 0) :
    (s.advance settings).kind.function? = none := by
  have hc := s.call?_advance settings
  have hd := s.rawDepth_advance settings
  simpa [call?, isRaw, hd, h] using hc

/-- In raw mode an advance takes one token of the feed, as the feed delivers it. -/
theorem advance_of_raw {s : Stream} (h : 0 < s.rawDepth) :
    s.advance settings = s.fetch settings := by
  have hc : (s.fetch settings).call? = none := by
    have hr : (s.fetch settings).isRaw = true := decide_eq_true h
    simp [call?, hr]
  exact advance_of_call?_eq_none settings hc

end Stream

/-! ## Moves -/

/-- The smallest things that can be done to a stream. -/
inductive Move where
  | advance
  | report (span : Span) (cause : Cause)
  | push (tokens : List Token)
  | enterRaw
  | leaveRaw

namespace Move

/-- The moves that reading is made of. -/
def reads : Move → Bool
  | advance | report _ _ => true
  | push _ | enterRaw | leaveRaw => false

end Move

/-- A stream, and the raw depth at which it was last advanced. -/
structure Session where
  stream : Stream
  advancedAt : Option Nat := none

namespace Session

variable (settings : Settings)

def move (m : Move) (σ : Session) : Session :=
  match m with
  | .advance => ⟨σ.stream.advance settings, some σ.stream.rawDepth⟩
  | .report span cause => { σ with stream := σ.stream.reportAt span cause }
  | .push tokens => { σ with stream := σ.stream.push tokens }
  | .enterRaw => { σ with stream := σ.stream.enterRaw }
  | .leaveRaw => { σ with stream := σ.stream.leaveRaw }

def moves : List Move → Session → Session
  | [], σ => σ
  | m :: ms, σ => moves ms (move settings m σ)

theorem moves_append (ms ms' : List Move) (σ : Session) :
    σ.moves settings (ms ++ ms') = (σ.moves settings ms).moves settings ms' := by
  induction ms generalizing σ with
  | nil => rfl
  | cons m ms ih => exact ih _

/-- A stream last advanced outside raw mode does not show a function token. -/
def Dispatched (σ : Session) : Prop :=
  σ.advancedAt = some 0 → σ.stream.kind.function? = none

theorem dispatched_start (s : Stream) : Dispatched ⟨s, none⟩ := by
  intro h
  cases h

/-- **Every move keeps the invariant.** -/
theorem dispatched_move {σ : Session} (h : σ.Dispatched) (m : Move) :
    (σ.move settings m).Dispatched := by
  cases m with
  | advance =>
    -- the ghost is the depth of this very advance
    intro hd
    exact Stream.function?_advance settings (Option.some.inj hd)
  | report span cause => exact h
  | push tokens => exact h
  | enterRaw => exact h
  | leaveRaw => exact h

theorem dispatched_moves {σ : Session} (h : σ.Dispatched) (ms : List Move) :
    (σ.moves settings ms).Dispatched := by
  induction ms generalizing σ with
  | nil => exact h
  | cons m ms ih => exact ih (dispatched_move settings h m)

/-- Reading moves leave the raw depth as it is. -/
theorem rawDepth_moves_of_reads (σ : Session) (ms : List Move) (h : ∀ m ∈ ms, m.reads = true) :
    (σ.moves settings ms).stream.rawDepth = σ.stream.rawDepth := by
  induction ms generalizing σ with
  | nil => rfl
  | cons m ms ih =>
    have hm := h m List.mem_cons_self
    refine (ih (σ.move settings m) fun x hx => h x (List.mem_cons_of_mem _ hx)).trans ?_
    cases m with
    | advance => exact σ.stream.rawDepth_advance settings
    | report span cause => rfl
    | push tokens => cases hm
    | enterRaw => cases hm
    | leaveRaw => cases hm

end Session

/-! ## Operations are made of moves -/

namespace Stream

variable (settings : Settings)

/-- A stream that reading moves lead to. -/
def ReadsTo (s t : Stream) : Prop :=
  ∃ ms : List Move, (∀ m ∈ ms, m.reads = true) ∧
    ∀ d, ((⟨s, d⟩ : Session).moves settings ms).stream = t

variable {settings} {s t : Stream}

theorem ReadsTo.refl (s : Stream) : ReadsTo settings s s :=
  ⟨[], by simp, fun _ => rfl⟩

theorem ReadsTo.advance (h : ReadsTo settings s t) : ReadsTo settings s (t.advance settings) := by
  obtain ⟨ms, hr, hm⟩ := h
  refine ⟨ms ++ [.advance], ?_, ?_⟩
  · intro m hm
    rcases List.mem_append.mp hm with hm | hm
    · exact hr m hm
    · rw [List.mem_singleton.mp hm]
      rfl
  · intro d
    rw [Session.moves_append, ← hm d]
    rfl

theorem ReadsTo.reportAt (h : ReadsTo settings s t) (span : Span) (cause : Cause) :
    ReadsTo settings s (t.reportAt span cause) := by
  obtain ⟨ms, hr, hm⟩ := h
  refine ⟨ms ++ [.report span cause], ?_, ?_⟩
  · intro m hm
    rcases List.mem_append.mp hm with hm | hm
    · exact hr m hm
    · rw [List.mem_singleton.mp hm]
      rfl
  · intro d
    rw [Session.moves_append, ← hm d]
    rfl

/-- Whatever is read from a stream is read by moves. -/
theorem readsTo_invariant (s : Stream) :
    Invariant (Advance.full settings) (ReadsTo settings s) where
  step := fun h _ => h.advance
  report := fun h span cause _ => h.reportAt span cause

theorem readsTo_consume (expected : Kind) (absent : Cause) (s : Stream) :
    ReadsTo settings s (s.consume settings expected absent).2 := by
  unfold consume Advance.consume
  split
  · exact (ReadsTo.refl s).advance
  · exact (ReadsTo.refl s).reportAt _ _

theorem readsTo_consumeSeparator (s : Stream) :
    ReadsTo settings s (s.consumeSeparator settings) := by
  unfold consumeSeparator Advance.consumeSeparator
  split
  · exact ReadsTo.refl s
  · exact (ReadsTo.refl s).advance
  · exact (readsTo_invariant s).skipToSeparator ((ReadsTo.refl s).reportAt _ _)

/-- Reading does not change the raw depth. -/
theorem ReadsTo.rawDepth (h : ReadsTo settings s t) : t.rawDepth = s.rawDepth := by
  obtain ⟨ms, hr, hm⟩ := h
  rw [← hm none]
  exact Session.rawDepth_moves_of_reads settings _ ms hr

end Stream

namespace Operation

/-- Whether an operation enters raw mode. -/
def enters : Operation → Bool
  | enterRaw => true
  | _ => false

/-- Whether an operation leaves raw mode. -/
def leaves : Operation → Bool
  | leaveRaw => true
  | _ => false

mutual

/-- An operation with its guards opened up. -/
def opened : Operation → List Operation
  | guarded ops => enterRaw :: (allOpened ops ++ [leaveRaw])
  | op => [op]

/-- Operations with their guards opened up. -/
def allOpened : List Operation → List Operation
  | [] => []
  | op :: ops => opened op ++ allOpened ops

end

/-- An operation that is no guard. -/
def isPlain : Operation → Bool
  | guarded _ => false
  | _ => true

mutual

theorem isPlain_of_mem_opened : ∀ (op : Operation) {x : Operation}, x ∈ op.opened → x.isPlain = true
  | guarded ops, x, h => by
    simp only [opened, List.mem_cons, List.mem_append, List.not_mem_nil, or_false] at h
    rcases h with rfl | h | rfl
    · rfl
    · exact isPlain_of_mem_allOpened ops h
    · rfl
  | next, x, h | constant, x, h | consume _ _, x, h | consumeSeparator, x, h
  | skipToSeparator, x, h | report _, x, h | push _, x, h | enterRaw, x, h | leaveRaw, x, h
  | symbol _, x, h | limits, x, h => by
    simp only [opened, List.mem_singleton] at h
    rw [h]
    rfl

theorem isPlain_of_mem_allOpened :
    ∀ (ops : List Operation) {x : Operation}, x ∈ allOpened ops → x.isPlain = true
  | [], x, h => by simp [allOpened] at h
  | op :: ops, x, h => by
    rw [allOpened, List.mem_append] at h
    rcases h with h | h
    · exact isPlain_of_mem_opened op h
    · exact isPlain_of_mem_allOpened ops h

end

end Operation

namespace Stream

variable (settings : Settings)

theorem performAll_append (ops ops' : List Operation) (s : Stream) :
    (performAll settings (ops ++ ops') s).2
      = (performAll settings ops' (performAll settings ops s).2).2 := by
  induction ops generalizing s with
  | nil => simp [performAll]
  | cons op ops ih => simpa [performAll] using ih _

mutual

theorem perform_opened : ∀ (op : Operation) (s : Stream),
    (performAll settings op.opened s).2 = (perform settings op s).2
  | .guarded ops, s => by
    simp only [Operation.opened, performAll, perform, performAll_append]
    rw [performAll_allOpened ops]
  | .next, s | .constant, s | .consume _ _, s | .consumeSeparator, s | .skipToSeparator, s
  | .report _, s | .push _, s | .enterRaw, s | .leaveRaw, s | .symbol _, s | .limits, s => by
    rfl

/-- Opening guards up changes nothing for the stream. -/
theorem performAll_allOpened : ∀ (ops : List Operation) (s : Stream),
    (performAll settings (Operation.allOpened ops) s).2 = (performAll settings ops s).2
  | [], s => rfl
  | op :: ops, s => by
    rw [Operation.allOpened, performAll_append, perform_opened op, performAll_allOpened ops]
    rfl

end

/-- The raw depth after a plain operation. -/
theorem rawDepth_perform {op : Operation} (h : op.isPlain = true) (s : Stream) :
    (perform settings op s).2.rawDepth
      = s.rawDepth + (if op.enters then 1 else 0) - (if op.leaves then 1 else 0) := by
  cases op with
  | next => exact s.rawDepth_advance settings
  | constant => exact ((readsTo_invariant s).constant (ReadsTo.refl s) _).rawDepth
  | consume expected absent => exact (readsTo_consume expected absent s).rawDepth
  | consumeSeparator => exact (readsTo_consumeSeparator s).rawDepth
  | skipToSeparator => exact ((readsTo_invariant s).skipToSeparator (ReadsTo.refl s)).rawDepth
  | report cause => rfl
  | push tokens => rfl
  | enterRaw => rfl
  | leaveRaw => rfl
  | symbol name => rfl
  | limits => rfl
  | guarded ops => cases h

/-- The raw depth after plain operations that never leave raw mode more often than
they have entered it. -/
theorem rawDepth_performAll {ops : List Operation} (plain : ∀ op ∈ ops, op.isPlain = true) :
    ∀ {s : Stream},
      (∀ n, (ops.take n).countP Operation.leaves
        ≤ s.rawDepth + (ops.take n).countP Operation.enters) →
      (performAll settings ops s).2.rawDepth + ops.countP Operation.leaves
        = s.rawDepth + ops.countP Operation.enters := by
  induction ops with
  | nil =>
    intro s _
    rfl
  | cons op ops ih =>
    intro s below
    have hd := rawDepth_perform settings (plain op List.mem_cons_self) s
    have h1 := below 1
    simp only [List.take_succ_cons, List.take_zero, List.countP_cons, List.countP_nil] at h1
    -- the rest never leaves more often than the depth reached so far allows
    have step : ∀ n, (ops.take n).countP Operation.leaves
        ≤ (perform settings op s).2.rawDepth + (ops.take n).countP Operation.enters := by
      intro n
      have hn := below (n + 1)
      simp only [List.take_succ_cons, List.countP_cons] at hn
      omega
    have := ih (fun x hx => plain x (List.mem_cons_of_mem _ hx)) step
    simp only [List.countP_cons]
    change (performAll settings ops (perform settings op s).2).2.rawDepth + _ = _
    omega

end Stream

/-! ## What an operation is made of -/

/-- The moves that an operation may make: readers advance and report as the tokens
require, everything else makes the one move it is named for, or none. -/
def Operation.mayMake (op : Operation) (ms : List Move) : Prop :=
  match op with
  | .next => ms = [.advance]
  | .constant | .consume _ _ | .consumeSeparator | .skipToSeparator => ∀ m ∈ ms, m.reads = true
  | .report cause => ∃ span, ms = [.report span cause]
  | .push tokens => ms = [.push tokens]
  | .enterRaw => ms = [.enterRaw]
  | .leaveRaw => ms = [.leaveRaw]
  | .symbol _ | .limits => ms = []
  | .guarded _ => False

namespace Session

variable (settings : Settings)

/-- `Does settings ops σ τ`: the moves of the operations, one after the other, lead
from `σ` to `τ`. -/
inductive Does : List Operation → Session → Session → Prop where
  | done (σ : Session) : Does [] σ σ
  | step {op : Operation} {ops : List Operation} {ms : List Move} {σ τ : Session} :
      op.mayMake ms →
      (σ.moves settings ms).stream = (σ.stream.perform settings op).2 →
      Does ops (σ.moves settings ms) τ → Does (op :: ops) σ τ

theorem exists_moves {op : Operation} (h : op.isPlain = true) (σ : Session) :
    ∃ ms, op.mayMake ms ∧ (σ.moves settings ms).stream = (σ.stream.perform settings op).2 := by
  have reading : ∀ {t : Stream}, Stream.ReadsTo settings σ.stream t →
      ∃ ms : List Move, (∀ m ∈ ms, m.reads = true) ∧ (σ.moves settings ms).stream = t := by
    intro t ht
    obtain ⟨ms, hr, hm⟩ := ht
    exact ⟨ms, hr, hm σ.advancedAt⟩
  cases op with
  | next => exact ⟨_, rfl, rfl⟩
  | constant =>
    exact reading ((Stream.readsTo_invariant _).constant (Stream.ReadsTo.refl _) _)
  | consume expected absent => exact reading (Stream.readsTo_consume expected absent _)
  | consumeSeparator => exact reading (Stream.readsTo_consumeSeparator _)
  | skipToSeparator =>
    exact reading ((Stream.readsTo_invariant _).skipToSeparator (Stream.ReadsTo.refl _))
  | report cause => exact ⟨_, ⟨_, rfl⟩, rfl⟩
  | push tokens => exact ⟨_, rfl, rfl⟩
  | enterRaw => exact ⟨_, rfl, rfl⟩
  | leaveRaw => exact ⟨_, rfl, rfl⟩
  | symbol name => exact ⟨_, rfl, rfl⟩
  | limits => exact ⟨_, rfl, rfl⟩
  | guarded ops => cases h

/-- Plain operations can be done by moves, from wherever they start. -/
theorem exists_does {ops : List Operation} (plain : ∀ op ∈ ops, op.isPlain = true) :
    ∀ σ, ∃ τ, Does settings ops σ τ := by
  induction ops with
  | nil =>
    intro σ
    exact ⟨σ, .done σ⟩
  | cons op ops ih =>
    intro σ
    obtain ⟨ms, hm, hs⟩ := exists_moves settings (plain op List.mem_cons_self) σ
    obtain ⟨τ, hτ⟩ := ih (fun x hx => plain x (List.mem_cons_of_mem _ hx)) (σ.moves settings ms)
    exact ⟨τ, .step hm hs hτ⟩

/-- Moves of operations lead where the operations lead. -/
theorem Does.stream_eq {ops : List Operation} {σ τ : Session} (h : Does settings ops σ τ) :
    τ.stream = (σ.stream.performAll settings ops).2 := by
  induction h with
  | done => rfl
  | step hm hs _ ih =>
    rw [ih, hs]
    rfl

theorem Does.dispatched {ops : List Operation} {σ τ : Session} (h : Does settings ops σ τ)
    (hσ : σ.Dispatched) : τ.Dispatched := by
  induction h with
  | done => exact hσ
  | @step op ops ms σ τ hm hs _ ih => exact ih (dispatched_moves settings hσ ms)

end Session

namespace Stream

/-- **The raw depth and the current token in every session.** At every point of a
session, points inside guards included, the raw depth is the number of times that
raw mode was entered less the number of times it was left. However the moves went
that the operations were made of, the current token calls no function if the latest
advance was made outside raw mode. And in raw mode, to advance is to take the next
token of the feed, with no more diagnostics than the feed has for it. -/
theorem depth_and_dispatch (settings : Settings) (scan : Scan) (ops : List Operation)
    (below : ∀ n, ((Operation.allOpened ops).take n).countP Operation.leaves
      ≤ ((Operation.allOpened ops).take n).countP Operation.enters) :
    (performAll settings (Operation.allOpened ops) (ofScan scan)).2
        = (performAll settings ops (ofScan scan)).2 ∧
    (∀ n,
      let done := (Operation.allOpened ops).take n
      let s := (performAll settings done (ofScan scan)).2
      s.rawDepth = done.countP Operation.enters - done.countP Operation.leaves ∧
      (∃ τ, Session.Does settings done ⟨ofScan scan, none⟩ τ) ∧
      ∀ τ, Session.Does settings done ⟨ofScan scan, none⟩ τ →
        τ.stream = s ∧ (τ.advancedAt = some 0 → s.kind.function? = none)) ∧
    ∀ s : Stream, 0 < s.rawDepth →
      let d := s.feed.next settings.limits.maxStringLength s.log
      s.advance settings = { s with feed := d.feed, current := d.token, log := d.log } := by
  refine ⟨performAll_allOpened settings ops _, ?_, ?_⟩
  · intro n done s
    have plain : ∀ op ∈ done, op.isPlain = true := fun op hop =>
      Operation.isPlain_of_mem_allOpened ops (List.mem_of_mem_take hop)
    -- the first part of a part done so far is a first part of the whole session
    have within : ∀ k, (done.take k).countP Operation.leaves
        ≤ (ofScan scan).rawDepth + (done.take k).countP Operation.enters := by
      intro k
      have hk := below (min k n)
      rw [← List.take_take] at hk
      exact Nat.le_trans hk (Nat.le_add_left _ _)
    refine ⟨?_, Session.exists_does settings plain _, ?_⟩
    · have hd := rawDepth_performAll settings plain within
      have h0 : (ofScan scan).rawDepth = 0 := rfl
      change s.rawDepth + _ = _ at hd
      omega
    · intro τ hτ
      have hs := hτ.stream_eq settings
      refine ⟨hs, ?_⟩
      intro hd
      have hc := hτ.dispatched settings (Session.dispatched_start _) hd
      rw [hs] at hc
      exact hc
  · intro s hs
    exact advance_of_raw settings hs

/-- A function token read inside a guard, and the next one outside of it. -/
theorem depth_and_dispatch_guarded :
    let ops : List Operation := [.guarded [.next], .next]
    let start := ofScan ⟨[.ok { kind := .call .left }, .ok { kind := .call .string }], {}⟩
    (∀ n, ((Operation.allOpened ops).take n).countP Operation.leaves
      ≤ ((Operation.allOpened ops).take n).countP Operation.enters) ∧
    (performAll {} ((Operation.allOpened ops).take 2) start).2.rawDepth = 1 ∧
    (performAll {} ((Operation.allOpened ops).take 4) start).2.rawDepth = 0 := by
  intro ops start
  have hops : Operation.allOpened ops = [.enterRaw, .next, .leaveRaw, .next] := by
    simp [ops, Operation.allOpened, Operation.opened]
  have below : ∀ n, ((Operation.allOpened ops).take n).countP Operation.leaves
      ≤ ((Operation.allOpened ops).take n).countP Operation.enters := by
    rw [hops]
    intro n
    match n with
    | 0 | 1 | 2 | 3 => decide
    | n + 4 =>
      rw [List.take_of_length_le (by simp)]
      decide
  obtain ⟨_, inside, _⟩ := depth_and_dispatch {} ⟨[.ok { kind := .call .left },
    .ok { kind := .call .string }], {}⟩ ops below
  refine ⟨below, ?_, ?_⟩
  · rw [(inside 2).1, hops]
    rfl
  · rw [(inside 4).1, hops]
    rfl

end Stream

end AsmExpand
