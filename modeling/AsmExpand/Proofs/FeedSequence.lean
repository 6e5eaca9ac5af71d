import AsmExpand.Proofs.AnyScanner

/-!
# The feed is one sequence

A feed keeps its pushed tokens in lists, and lists that are used up, or were empty from the
start, stay among them until a request comes upon them. None of that shows. A feed returns what
a `Sequence` returns: a push puts its list in front of what waits, a request takes the head and
leaves the scanner and the log alone, and only when nothing waits is the scanner asked, until
it delivers a token. One request of a feed is one of the sequence that it holds, in both
directions (`FeedOn.exists_next`, `FeedOn.exists_mem_next`), and by induction on the operations
so is a session.

A sequence does not look at what waits. So each pushed token may carry a `Stamp` that tells it
from all others, and a session with stamps looks like the session without them
(`Sequence.Run.exists_of_map`). The stamps show what becomes of a token. It is returned or it
still waits, and is there once (`Sequence.Run.perm`); and what waits is always in the order of
the pushes, the last one in front, so that a token pushed later is returned first
(`Sequence.Run.returnedInOrder`).
-/

namespace AsmExpand

universe u v w

/-- What waits, and a scanner behind it. -/
structure Sequence (α : Type u) (σ : Type v) where
  waiting : List α
  scanner : σ

namespace FeedOperation

variable {α : Type u} {β : Type w}

def map (f : α → β) : FeedOperation α → FeedOperation β
  | .push as => .push (as.map f)
  | .next => .next

/-- What an operation puts in front. -/
def pushed : FeedOperation α → List α
  | .push as => as
  | .next => []

end FeedOperation

namespace Sequence

variable {α : Type u} {β : Type w} {σ : Type v}

/-- Put a list in front of everything else. -/
def push (q : Sequence α σ) (as : List α) : Sequence α σ := { q with waiting := as ++ q.waiting }

def map (f : α → β) (q : Sequence α σ) : Sequence β σ := { q with waiting := q.waiting.map f }

theorem map_push (f : α → β) (q : Sequence α σ) (as : List α) :
    (q.push as).map f = (q.map f).push (as.map f) := by
  simp [map, push]

variable [Scanner σ]

/-- `Next limit q log r q' log'`: a request to `q` returns `r`, and leaves `q'` and `log'`. On
the left is what has waited, on the right a token of the scanner. -/
inductive Next (limit : Nat) :
    Sequence α σ → Diagnostics → α ⊕ Token → Sequence α σ → Diagnostics → Prop where
  | head {a : α} {as : List α} {s : σ} {log : Diagnostics} :
      Next limit ⟨a :: as, s⟩ log (.inl a) ⟨as, s⟩ log
  | scanned {s s' : σ} {faults : List ScanError} {t : Token} {log : Diagnostics} :
      Scanner.Answers s faults t s' →
      Next limit ⟨[], s⟩ log (.inr (Feed.checked limit t)) ⟨[], s'⟩
        (Feed.checkedLog limit (log ++ Scanner.reports faults) t)

/-- `Run limit ops q log rs q' log'`: the requests among `ops`, done in order from `q`, return
`rs`, and `q'` and `log'` are left. -/
inductive Run (limit : Nat) : List (FeedOperation α) → Sequence α σ → Diagnostics →
    List (α ⊕ Token) → Sequence α σ → Diagnostics → Prop where
  | done {q : Sequence α σ} {log : Diagnostics} : Run limit [] q log [] q log
  | push {as : List α} {ops : List (FeedOperation α)} {q q' : Sequence α σ}
      {log log' : Diagnostics} {rs : List (α ⊕ Token)} :
      Run limit ops (q.push as) log rs q' log' → Run limit (.push as :: ops) q log rs q' log'
  | next {ops : List (FeedOperation α)} {q q' q'' : Sequence α σ} {log log' log'' : Diagnostics}
      {r : α ⊕ Token} {rs : List (α ⊕ Token)} :
      Next limit q log r q' log' → Run limit ops q' log' rs q'' log'' →
      Run limit (.next :: ops) q log (r :: rs) q'' log''

/-- A request to images of things is the image of a request to the things. -/
theorem Next.exists_of_map {limit : Nat} {f : α → β} {q : Sequence α σ} {q' : Sequence β σ}
    {log log' : Diagnostics} {r : β ⊕ Token} (h : Next limit (q.map f) log r q' log') :
    ∃ r₀ q₀, Next limit q log r₀ q₀ log' ∧ r₀.map f id = r ∧ q₀.map f = q' := by
  obtain ⟨waiting, s⟩ := q
  cases waiting with
  | cons a as =>
    cases h with
    | head => exact ⟨.inl a, ⟨as, s⟩, .head, rfl, rfl⟩
  | nil =>
    cases h with
    | scanned ha => exact ⟨.inr _, ⟨[], _⟩, .scanned ha, rfl, rfl⟩

/-- **What waits is not looked at**: a session with images of things is the image of a session
with the things themselves. -/
theorem Run.exists_of_map {limit : Nat} {f : α → β} {ops : List (FeedOperation α)}
    {q : Sequence α σ} {q' : Sequence β σ} {log log' : Diagnostics} {rs : List (β ⊕ Token)}
    (h : Run limit (ops.map (.map f)) (q.map f) log rs q' log') :
    ∃ rs₀ q₀, Run limit ops q log rs₀ q₀ log' ∧ rs₀.map (Sum.map f id) = rs ∧
      q₀.map f = q' := by
  induction ops generalizing q log rs with
  | nil =>
    cases h
    exact ⟨[], q, .done, rfl, rfl⟩
  | cons op ops ih =>
    cases op with
    | push as =>
      cases h with
      | push hrun =>
        rw [← map_push] at hrun
        obtain ⟨rs₀, q₀, hrun₀, hrs, hq⟩ := ih hrun
        exact ⟨rs₀, q₀, .push hrun₀, hrs, hq⟩
    | next =>
      cases h with
      | next hnext hrun =>
        obtain ⟨r₀, q₁, hnext₀, rfl, rfl⟩ := hnext.exists_of_map
        obtain ⟨rs₀, q₀, hrun₀, rfl, hq⟩ := ih hrun
        exact ⟨r₀ :: rs₀, q₀, .next hnext₀ hrun₀, rfl, hq⟩

/-- **Nothing is lost and nothing repeated**: what is returned and what waits at the end is what
waited at the beginning and what was pushed. -/
theorem Run.perm {limit : Nat} {ops : List (FeedOperation α)} {q q' : Sequence α σ}
    {log log' : Diagnostics} {rs : List (α ⊕ Token)} (h : Run limit ops q log rs q' log') :
    (rs.filterMap Sum.getLeft? ++ q'.waiting).Perm
      (q.waiting ++ ops.flatMap FeedOperation.pushed) := by
  induction h with
  | done => simp
  | @push as ops q q' log log' rs _ ih =>
    refine ih.trans ?_
    rw [List.flatMap_cons, FeedOperation.pushed, Sequence.push, List.append_assoc]
    exact List.perm_append_comm_assoc _ _ _
  | next hnext _ ih =>
    cases hnext with
    | head => exact ih.cons _
    | scanned => exact ih

end Sequence

/-! ## A feed and the sequence it holds -/

namespace FeedOn

variable {σ : Type u}

/-- What a feed holds as one sequence. -/
def sequence (f : FeedOn σ) : Sequence Token σ := ⟨f.pending.flatten, f.scanner⟩

theorem sequence_push (f : FeedOn σ) (ts : List Token) :
    (f.push ts).sequence = f.sequence.push ts := by
  simp [sequence, push, Sequence.push]

variable [Scanner σ] {limit : Nat} {f : FeedOn σ} {log log' : Diagnostics}

/-- A request of a feed is one of its sequence. -/
theorem exists_next {t : Token} {g : FeedOn σ} (h : (t, log', g) ∈ f.next limit log) :
    ∃ r, Sequence.Next limit f.sequence log r g.sequence log' ∧ r.elim id id = t := by
  unfold next at h
  unfold sequence
  cases hp : Feed.popPending? f.pending with
  | some p =>
    obtain ⟨t', below⟩ := p
    rw [hp] at h
    cases Part.mem_some_iff.mp h
    rw [Feed.flatten_of_popPending? hp]
    exact ⟨.inl t, .head, rfl⟩
  | none =>
    rw [hp] at h
    obtain ⟨r, hask, h⟩ := (Part.mem_map_iff _).mp h
    obtain ⟨faults, t', s', ha, rfl⟩ := Scanner.mem_ask_iff.mp hask
    cases h
    rw [Feed.flatten_of_popPending?_eq_none hp]
    exact ⟨.inr _, .scanned ha, rfl⟩

/-- A request of its sequence is one of the feed, whatever lists are used up. -/
theorem exists_mem_next {r : Token ⊕ Token} {q : Sequence Token σ}
    (h : Sequence.Next limit f.sequence log r q log') :
    ∃ g, (r.elim id id, log', g) ∈ f.next limit log ∧ g.sequence = q := by
  unfold next
  unfold sequence at h
  cases hp : Feed.popPending? f.pending with
  | some p =>
    obtain ⟨t, below⟩ := p
    rw [Feed.flatten_of_popPending? hp] at h
    cases h with
    | head => exact ⟨_, Part.mem_some _, rfl⟩
  | none =>
    rw [Feed.flatten_of_popPending?_eq_none hp] at h
    cases h with
    | scanned ha =>
      rw [Scanner.ask_of_answers ha, Part.map_some]
      exact ⟨_, Part.mem_some _, rfl⟩

/-- A session of a feed is one of its sequence. -/
theorem exists_run {ops : List (FeedOperation Token)} {r : FeedRun (FeedOn σ)}
    (h : r ∈ f.run limit ops log) :
    ∃ rs, Sequence.Run limit ops f.sequence log rs r.feed.sequence r.log ∧
      rs.map (Sum.elim id id) = r.returned := by
  induction ops generalizing f log r with
  | nil =>
    cases Part.mem_some_iff.mp h
    exact ⟨[], .done, rfl⟩
  | cons op ops ih =>
    cases op with
    | push ts =>
      obtain ⟨rs, hrun, hrs⟩ := ih (f := f.push ts) h
      rw [sequence_push] at hrun
      exact ⟨rs, .push hrun, hrs⟩
    | next =>
      obtain ⟨⟨t, log₁, f₁⟩, hnext, h⟩ := Part.mem_bind_iff.mp h
      obtain ⟨r', hrest, rfl⟩ := (Part.mem_map_iff _).mp h
      obtain ⟨a, ha, rfl⟩ := exists_next hnext
      obtain ⟨rs, hrun, hrs⟩ := ih hrest
      exact ⟨a :: rs, .next ha hrun, congrArg (a.elim id id :: ·) hrs⟩

/-- A session of its sequence is one of the feed. -/
theorem exists_mem_run {ops : List (FeedOperation Token)} {rs : List (Token ⊕ Token)}
    {q : Sequence Token σ} (h : Sequence.Run limit ops f.sequence log rs q log') :
    ∃ g, ⟨rs.map (Sum.elim id id), log', g⟩ ∈ f.run limit ops log ∧ g.sequence = q := by
  induction ops generalizing f log rs with
  | nil =>
    cases h
    exact ⟨f, Part.mem_some _, rfl⟩
  | cons op ops ih =>
    cases h with
    | push hrun =>
      rw [← sequence_push] at hrun
      exact ih hrun
    | next hnext hrun =>
      obtain ⟨f₁, hf₁, rfl⟩ := exists_mem_next hnext
      obtain ⟨g, hg, hq⟩ := ih hrun
      exact ⟨g, Part.mem_bind hf₁ (Part.mem_map _ hg), hq⟩

end FeedOn

/-! ## What becomes of each token -/

/-- Where a token comes from: the number of the operation that pushed it, and its place in the
list. -/
structure Stamp where
  push : Nat
  place : Nat
deriving DecidableEq

/-- `a` is to be returned before `b`: it was pushed later, or with it and in front of it. -/
def Stamp.Before (a b : Stamp) : Prop :=
  b.push < a.push ∨ a.push = b.push ∧ a.place < b.place

theorem Stamp.Before.ne {a b : Stamp} (h : a.Before b) : a ≠ b := by
  rintro rfl
  rcases h with h | h <;> omega

/-- The tokens of a push, each with its stamp. -/
def stamped (n : Nat) (ts : List Token) : List (Stamp × Token) :=
  ts.mapIdx fun i t => (⟨n, i⟩, t)

/-- Operations with the pushed tokens stamped, the first operation having the number `n`. -/
def stampedFrom : Nat → List (FeedOperation Token) → List (FeedOperation (Stamp × Token))
  | _, [] => []
  | n, .push ts :: ops => .push (stamped n ts) :: stampedFrom (n + 1) ops
  | n, .next :: ops => .next :: stampedFrom (n + 1) ops

/-- The numbers of the requests among operations, the first operation having the number `n`. -/
def requestsFrom : Nat → List (FeedOperation Token) → List Nat
  | _, [] => []
  | n, .push _ :: ops => requestsFrom (n + 1) ops
  | n, .next :: ops => n :: requestsFrom (n + 1) ops

theorem map_snd_stamped (n : Nat) (ts : List Token) : (stamped n ts).map Prod.snd = ts :=
  List.ext_getElem (by simp [stamped]) (by simp [stamped])

theorem map_snd_stampedFrom (n : Nat) (ops : List (FeedOperation Token)) :
    (stampedFrom n ops).map (.map Prod.snd) = ops := by
  induction ops generalizing n with
  | nil => rfl
  | cons op ops ih =>
    cases op with
    | push ts => simp [stampedFrom, FeedOperation.map, map_snd_stamped, ih]
    | next => simp [stampedFrom, FeedOperation.map, ih]

theorem push_of_mem_stamped {n : Nat} {ts : List Token} {x : Stamp × Token}
    (h : x ∈ stamped n ts) : x.1.push = n := by
  obtain ⟨i, hi, rfl⟩ := List.mem_mapIdx.mp h
  rfl

/-- What is pushed from the operation `n` on has a number from `n` on. -/
theorem le_push_of_mem {n : Nat} {ops : List (FeedOperation Token)} {x : Stamp × Token}
    (h : x ∈ (stampedFrom n ops).flatMap (·.pushed)) : n ≤ x.1.push := by
  induction ops generalizing n with
  | nil => simp [stampedFrom] at h
  | cons op ops ih =>
    cases op with
    | push ts =>
      rcases List.mem_append.mp h with h | h
      · have := push_of_mem_stamped h
        omega
      · have := ih h
        omega
    | next =>
      have := ih h
      omega

/-- Stamped tokens, each to be returned before those behind it. -/
def NewestFirst (xs : List (Stamp × Token)) : Prop := xs.Pairwise fun x y => x.1.Before y.1

theorem newestFirst_stamped (n : Nat) (ts : List Token) : NewestFirst (stamped n ts) := by
  rw [NewestFirst, List.pairwise_iff_getElem]
  intro i j hi hj hij
  simp only [stamped, List.getElem_mapIdx]
  exact Or.inr ⟨rfl, hij⟩

namespace NewestFirst

variable {xs : List (Stamp × Token)}

/-- A later push comes in front of what is in order. -/
theorem stamped_append (h : NewestFirst xs) {n : Nat} (hn : ∀ x ∈ xs, x.1.push < n)
    (ts : List Token) : NewestFirst (stamped n ts ++ xs) := by
  refine List.pairwise_append.mpr ⟨newestFirst_stamped n ts, h, ?_⟩
  intro x hx y hy
  refine Or.inl ?_
  rw [push_of_mem_stamped hx]
  exact hn y hy

theorem nodup (h : NewestFirst xs) : (xs.map Prod.fst).Nodup :=
  List.pairwise_map.mpr (h.imp Stamp.Before.ne)

end NewestFirst

/-- No stamp is given twice. -/
theorem nodup_stamps (n : Nat) (ops : List (FeedOperation Token)) :
    (((stampedFrom n ops).flatMap (·.pushed)).map Prod.fst).Nodup := by
  induction ops generalizing n with
  | nil => exact List.nodup_nil
  | cons op ops ih =>
    cases op with
    | push ts =>
      rw [stampedFrom, List.flatMap_cons, List.map_append]
      refine List.nodup_append.mpr ⟨(newestFirst_stamped n ts).nodup, ih (n + 1), ?_⟩
      intro a ha b hb
      obtain ⟨x, hx, rfl⟩ := List.mem_map.mp ha
      obtain ⟨y, hy, rfl⟩ := List.mem_map.mp hb
      have hxn := push_of_mem_stamped hx
      have hyn := le_push_of_mem hy
      intro h
      rw [← h] at hyn
      omega
    | next => exact ih (n + 1)

/-- What the requests with the numbers `times` return is in order. -/
structure ReturnedInOrder (rs : List ((Stamp × Token) ⊕ Token)) (times : List Nat) : Prop where
  length_eq : rs.length = times.length
  /-- Of two stamped tokens, the one returned first is to be returned before the other, unless
  the other was pushed only after that. -/
  pairwise : (rs.zip times).Pairwise fun a b =>
    ∀ x y, a.1 = .inl x → b.1 = .inl y → y.1.push < a.2 → x.1.Before y.1

/-- **A later push is returned first.** What waits is kept in order, since a push gets a number
above those of all that waits, and a request takes the head. -/
theorem Sequence.Run.returnedInOrder {σ : Type v} [Scanner σ] {limit n : Nat}
    {ops : List (FeedOperation Token)} {q q' : Sequence (Stamp × Token) σ}
    {log log' : Diagnostics} {rs : List ((Stamp × Token) ⊕ Token)}
    (h : Run limit (stampedFrom n ops) q log rs q' log') (hq : NewestFirst q.waiting)
    (hn : ∀ x ∈ q.waiting, x.1.push < n) : ReturnedInOrder rs (requestsFrom n ops) := by
  induction ops generalizing n q log rs with
  | nil =>
    cases h
    exact ⟨rfl, List.Pairwise.nil⟩
  | cons op ops ih =>
    cases op with
    | push ts =>
      cases h with
      | push hrun =>
        refine ih hrun (hq.stamped_append hn ts) fun x hx => ?_
        rcases List.mem_append.mp hx with hx | hx
        · have := push_of_mem_stamped hx
          omega
        · have := hn x hx
          omega
    | next =>
      cases h with
      | next hnext hrun =>
        cases hnext with
        | @head a as s =>
          obtain ⟨hfirst, hrest⟩ := List.pairwise_cons.mp hq
          have hlater := ih hrun hrest fun x hx =>
            Nat.lt_succ_of_lt (hn x (List.mem_cons_of_mem _ hx))
          refine ⟨congrArg Nat.succ hlater.length_eq, ?_⟩
          refine List.pairwise_cons.mpr ⟨?_, hlater.pairwise⟩
          rintro ⟨r, m⟩ hr x y ⟨⟩ rfl hy
          -- what is returned later waits behind the head, or is pushed after the request
          have hmem : y ∈ as ++ (stampedFrom (n + 1) ops).flatMap (·.pushed) := by
            refine hrun.perm.subset (List.mem_append_left _ ?_)
            exact List.mem_filterMap.mpr ⟨_, (List.of_mem_zip hr).1, rfl⟩
          rcases List.mem_append.mp hmem with hy' | hy'
          · exact hfirst y hy'
          · have := le_push_of_mem hy'
            dsimp only at hy
            omega
        | scanned =>
          have hlater := ih hrun hq fun x hx => Nat.lt_succ_of_lt (hn x hx)
          refine ⟨congrArg Nat.succ hlater.length_eq, ?_⟩
          refine List.pairwise_cons.mpr ⟨?_, hlater.pairwise⟩
          rintro _ _ x y ⟨⟩

namespace FeedOn

variable {σ : Type u} [Scanner σ] {limit : Nat} {f : FeedOn σ} {log : Diagnostics}

/-- A session of a feed, with its pushed tokens stamped. What is pending at the beginning is
pushed first. -/
theorem exists_stamped_run {ops : List (FeedOperation Token)} {r : FeedRun (FeedOn σ)}
    (h : r ∈ f.run limit ops log) :
    ∃ rs q, Sequence.Run limit (stampedFrom 0 (.push f.pending.flatten :: ops)) ⟨[], f.scanner⟩
        log rs q r.log ∧
      rs.map (Sum.elim Prod.snd id) = r.returned ∧ q.map Prod.snd = r.feed.sequence := by
  obtain ⟨rs, hrun, hrs⟩ := exists_run h
  have hstart : f.sequence = Sequence.push ⟨[], f.scanner⟩ f.pending.flatten := by
    rw [sequence, Sequence.push, List.append_nil]
  rw [hstart] at hrun
  have hall := Sequence.Run.push hrun
  rw [← map_snd_stampedFrom 0 (.push f.pending.flatten :: ops)] at hall
  obtain ⟨rs₀, q₀, hrun₀, rfl, hq⟩ := hall.exists_of_map (q := ⟨[], f.scanner⟩)
  refine ⟨rs₀, q₀, hrun₀, ?_, hq⟩
  rw [← hrs, List.map_map, Sum.elim_comp_map]
  rfl

/-- **A feed is one sequence.** On any scanner, whatever lists are pending: a session returns
tokens, a log and a feed exactly if the sequence of all that is pending returns these tokens
and this log, and the feed then holds what is left of the sequence. Let what is pending be
pushed by an operation of its own, the first one, and let every pushed token be stamped. Then
the sequence returns or still holds each of them, once, and a token pushed later is returned
before those that waited when it was pushed. The feed that reads a scan is a case of this, and
there every session returns. -/
theorem one_sequence {σ : Type u} [Scanner σ] (limit : Nat) (ops : List (FeedOperation Token))
    (log : Diagnostics) (f : FeedOn σ) :
    (∀ returned log' q,
      (∃ g, ⟨returned, log', g⟩ ∈ f.run limit ops log ∧ g.sequence = q) ↔
        ∃ rs, Sequence.Run limit ops f.sequence log rs q log' ∧
          rs.map (Sum.elim id id) = returned) ∧
    (∀ r ∈ f.run limit ops log,
      let all : List (FeedOperation Token) := .push f.pending.flatten :: ops
      let pushed := (stampedFrom 0 all).flatMap (·.pushed)
      ∃ rs q, Sequence.Run limit (stampedFrom 0 all) ⟨[], f.scanner⟩ log rs q r.log ∧
        rs.map (Sum.elim Prod.snd id) = r.returned ∧ q.map Prod.snd = r.feed.sequence ∧
        (pushed.map Prod.fst).Nodup ∧ (rs.filterMap Sum.getLeft? ++ q.waiting).Perm pushed ∧
        ReturnedInOrder rs (requestsFrom 0 all)) ∧
    (∀ g : Feed,
      let r := g.run limit ops log
      g.onScan.run limit ops log = Part.some ⟨r.returned, r.log, r.feed.onScan⟩ ∧
        ∃ rs, Sequence.Run limit ops ⟨g.pushed, g.scan⟩ log rs ⟨r.feed.pushed, r.feed.scan⟩ r.log ∧
          rs.map (Sum.elim id id) = r.returned) := by
  refine ⟨fun returned log' q => ⟨?_, ?_⟩, fun r h => ?_, fun g => ?_⟩
  · rintro ⟨g, hg, rfl⟩
    exact exists_run hg
  · rintro ⟨rs, hrun, rfl⟩
    exact exists_mem_run hrun
  · intro all pushed
    obtain ⟨rs, q, hrun, hrs, hq⟩ := exists_stamped_run h
    refine ⟨rs, q, hrun, hrs, hq, nodup_stamps 0 all, hrun.perm, ?_⟩
    exact hrun.returnedInOrder List.Pairwise.nil (by simp)
  · have hrun := Feed.run_onScan limit ops log g
    exact ⟨hrun, exists_run (Part.eq_some_iff.mp hrun)⟩

/-- Empty lists and lists that are used up lie under and between the others, and the scanner
goes on for ever, every other answer a fault. -/
theorem one_sequence_endless :
    let name (s : String) : Token := { kind := .ident, literal := some (.text s) }
    let fault : ScanError := { message := "Illegal character" }
    letI : Scanner Nat :=
      ⟨fun n => (if n % 2 = 0 then .error fault else .ok (name "z"), n + 1)⟩
    let f : FeedOn Nat := ⟨[[], [name "a"], []], 0⟩
    let ops : List (FeedOperation Token) := [.push [name "b", name "c"], .next, .push [],
      .push [name "d"], .next, .next, .next, .next]
    let r : FeedRun (FeedOn Nat) := ⟨[name "b", name "d", name "c", name "a", name "z"],
      #[{ span := {}, cause := .malformed "Illegal character" }], ⟨[], 2⟩⟩
    let all : List (FeedOperation Token) := .push [name "a"] :: ops
    let pushed := (stampedFrom 0 all).flatMap (·.pushed)
    r ∈ f.run 255 ops #[] ∧
      ∃ rs q, Sequence.Run 255 (stampedFrom 0 all) ⟨[], 0⟩ #[] rs q r.log ∧
        rs.map (Sum.elim Prod.snd id) = r.returned ∧ q.map Prod.snd = r.feed.sequence ∧
        (pushed.map Prod.fst).Nodup ∧ (rs.filterMap Sum.getLeft? ++ q.waiting).Perm pushed ∧
        ReturnedInOrder rs (requestsFrom 0 all) := by
  intro name fault f ops r all pushed
  let _ : Scanner Nat :=
    ⟨fun n => (if n % 2 = 0 then .error fault else .ok (name "z"), n + 1)⟩
  have hz : (name "z").isTooLong 255 = false := by decide
  have hanswers : Scanner.Answers 0 [fault] (name "z") 2 := .fault rfl (.token rfl)
  have hask : Scanner.ask 255 #[] 0 = Part.some (name "z", r.log, 2) := by
    rw [Scanner.ask_of_answers hanswers, Feed.checked, Feed.checkedLog, hz]
    rfl
  have h : r ∈ f.run 255 ops #[] := by
    simp [f, ops, r, run, next, push, Feed.popPending?, hask]
  exact ⟨h, (one_sequence 255 ops #[] f).2.1 r h⟩

end FeedOn

end AsmExpand
