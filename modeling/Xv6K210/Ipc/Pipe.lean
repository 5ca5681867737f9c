import Mathlib.Algebra.Group.Nat.Defs
import Xv6K210.Base.Ring
import Xv6K210.Base.Runs

/-!
# Pipes

Source `kernel/ipc/pipe.c:8–127`. Any number of processes call `pipewrite` and
`piperead` on one pipe. A call keeps the pipe lock except while it sleeps, so its steps are
the rounds of its loop; every schedule of these rounds, and every outcome of the copies
from and to user memory, is a run. `piperead` advances `nread` before it delivers the byte.
-/

namespace Xv6K210.Ipc

open Xv6K210.Base

/-! ### The pipe -/

/-- `PIPESIZE`. -/
def pipesize : Nat := 512

/-- Where a process stands in a call on the pipe. -/
inductive PipeCall where
  | idle
  /-- `pipewrite`, at the head of the loop, with the lock -/
  | write (addr : Nat) (n : Int) (i : Nat)
  | writeSleep (addr : Nat) (n : Int) (i : Nat)
  /-- `piperead`, before the loop, with the lock -/
  | read (addr : Nat) (n : Int)
  | readSleep (addr : Nat) (n : Int)
  /-- `piperead`, at the head of the loop, with the lock -/
  | copy (addr : Nat) (n : Int) (i : Nat)
  | returned (r : Int)
  deriving DecidableEq, Repr

/-- A pipe with the processes that use it. The last two fields record the bytes that were
accepted from writers and delivered to readers. -/
structure PipeSys where
  data : Nat → UInt8
  /-- 32-bit counter of bytes read -/
  nread : Nat
  /-- 32-bit counter of bytes written -/
  nwrite : Nat
  readopen : Bool
  writeopen : Bool
  /-- the page of the pipe was freed -/
  freed : Bool
  /-- the process that holds the lock -/
  lock : Option Nat
  call : Nat → PipeCall
  accepted : List UInt8
  delivered : List UInt8

/-- The pipe that `pipealloc` makes, on a page with any contents. -/
def pipealloc (data : Nat → UInt8) : PipeSys where
  data := data
  nread := 0
  nwrite := 0
  readopen := true
  writeopen := true
  freed := false
  lock := none
  call _ := .idle
  accepted := []
  delivered := []

/-- What happens next: who runs, and how the environment answers. -/
inductive PipeAct where
  | callWrite (p addr : Nat) (n : Int)
  | callRead (p addr : Nat) (n : Int)
  /-- a round of `pipewrite`; `src` is what `copyin` yields for the byte at `addr + i` -/
  | writeRound (p : Nat) (src : Option UInt8)
  /-- a round of `piperead`; `dst` tells whether `copyout` to `addr + i` succeeds -/
  | readRound (p : Nat) (dst : Bool)
  /-- `sleep_interruptible` returns, with `-1` when a signal is pending -/
  | resume (p : Nat) (interrupted : Bool)
  | pipeclose (writable : Bool)

namespace PipeSys

/-- Process `p` stands at `c`. -/
def goto (s : PipeSys) (p : Nat) (c : PipeCall) : PipeSys :=
  { s with call := Function.update s.call p c }

/-- Process `p` releases the lock and stands at `c`. -/
def leave (s : PipeSys) (p : Nat) (c : PipeCall) : PipeSys :=
  { s.goto p c with lock := none }

/-- Process `p` takes the lock and stands at `c`. -/
def enter (s : PipeSys) (p : Nat) (c : PipeCall) : PipeSys :=
  { s.goto p c with lock := some p }

/-- The test `nwrite == nread + PIPESIZE`, on 32-bit numbers. -/
def full (s : PipeSys) : Bool := s.nwrite == (s.nread + pipesize) % 2 ^ 32

/-- The test `nread == nwrite`. -/
def empty (s : PipeSys) : Bool := s.nread == s.nwrite

/-- `pi->data[pi->nwrite++ % PIPESIZE] = ch`. -/
def put (s : PipeSys) (ch : UInt8) : PipeSys :=
  { s with
    data := Function.update s.data (s.nwrite % pipesize) ch
    nwrite := (s.nwrite + 1) % 2 ^ 32
    accepted := s.accepted ++ [ch] }

/-- `ch = pi->data[pi->nread++ % PIPESIZE]`; `dst` tells whether `ch` was delivered. -/
def take (s : PipeSys) (dst : Bool) : PipeSys :=
  { s with
    nread := (s.nread + 1) % 2 ^ 32
    delivered := if dst then s.delivered ++ [s.data (s.nread % pipesize)] else s.delivered }

/-- One round of `pipewrite` (`pipe.c:78–100`). -/
def writeRound (s : PipeSys) (p addr : Nat) (n : Int) (i : Nat) (src : Option UInt8) : PipeSys :=
  if n ≤ i then s.leave p (.returned i)
  else if s.full && s.readopen then s.leave p (.writeSleep addr n i)
  else if s.readopen = false then s.leave p (.returned (if 0 < i then i else -1))
  else
    match src with
    | none => s.leave p (.returned i)
    | some ch => (s.put ch).goto p (.write addr n (i + 1))

/-- One round of `piperead` (`pipe.c:117–126`). -/
def copyRound (s : PipeSys) (p addr : Nat) (n : Int) (i : Nat) (dst : Bool) : PipeSys :=
  if n ≤ i then s.leave p (.returned i)
  else if s.empty then s.leave p (.returned i)
  else if dst then (s.take true).goto p (.copy addr n (i + 1))
  else (s.take false).leave p (.returned i)

/-- `pipeclose` (`pipe.c:53–69`). -/
def close (s : PipeSys) (writable : Bool) : PipeSys :=
  let s := if writable then { s with writeopen := false } else { s with readopen := false }
  if s.readopen = false ∧ s.writeopen = false then { s with freed := true } else s

/-- One step, if the process can take it. -/
def step (s : PipeSys) : PipeAct → Option PipeSys
  | .callWrite p addr n =>
    if s.lock = none ∧ s.call p = .idle then some (s.enter p (.write addr n 0)) else none
  | .callRead p addr n =>
    if s.lock = none ∧ s.call p = .idle then some (s.enter p (.read addr n)) else none
  | .writeRound p src =>
    match s.call p with
    | .write addr n i => some (s.writeRound p addr n i src)
    | _ => none
  | .readRound p dst =>
    match s.call p with
    | .read addr n =>
      if s.empty && s.writeopen then some (s.leave p (.readSleep addr n))
      else some (s.goto p (.copy addr n 0))
    | .copy addr n i => some (s.copyRound p addr n i dst)
    | _ => none
  | .resume p interrupted =>
    match s.call p with
    | .writeSleep addr n i =>
      if s.lock ≠ none then none
      else if interrupted then some (s.goto p (.returned (if 0 < i then i else -1)))
      else some (s.enter p (.write addr n i))
    | .readSleep addr n =>
      if s.lock ≠ none then none
      else if interrupted then some (s.goto p (.returned (-1)))
      else some (s.enter p (.read addr n))
    | .returned _ => some (s.goto p .idle)
    | _ => none
  | .pipeclose writable => if s.lock = none then some (s.close writable) else none

/-- Number of bytes in the pipe, `nwrite - nread` on 32-bit numbers. -/
def count (s : PipeSys) : Nat := (s.nwrite + 2 ^ 32 - s.nread) % 2 ^ 32

/-- The bytes in the pipe, oldest first. -/
def queued (s : PipeSys) : List UInt8 := ring pipesize s.data s.nread s.count

/-- What the queue of the pipe is made of. -/
def core (s : PipeSys) : (Nat → UInt8) × Nat × Nat × List UInt8 × List UInt8 :=
  (s.data, s.nread, s.nwrite, s.accepted, s.delivered)

end PipeSys

/-- Steps of the system, while the pipe exists. -/
def PipeStep (s : PipeSys) (a : PipeAct) (t : PipeSys) : Prop :=
  s.freed = false ∧ s.step a = some t

/-- The step is a round of `piperead` with a byte at hand whose `copyout` fails. -/
def CopyoutFails (s : PipeSys) (a : PipeAct) : Prop :=
  ∃ p addr n i, a = .readRound p false ∧ s.call p = .copy addr n i ∧ (i : Int) < n ∧
    s.empty = false

/-- The FIFO law: the bytes delivered are a prefix of the bytes accepted, the rest of them is
in the pipe, and the pipe never holds more than its size. -/
structure Fifo (s : PipeSys) : Prop where
  order : s.delivered <+: s.accepted
  lossless : s.accepted = s.delivered ++ s.queued
  bound : s.count ≤ pipesize

/-! ### What a step does to the queue -/

private theorem not_copyoutFails {s : PipeSys} {a : PipeAct} (h : ∀ p, a ≠ .readRound p false) :
    ¬ CopyoutFails s a := by
  rintro ⟨p, _, _, _, rfl, _⟩
  exact h p rfl

private theorem writeRound_cases (s : PipeSys) (p addr : Nat) (n : Int) (i : Nat)
    (src : Option UInt8) : (s.writeRound p addr n i src).core = s.core ∨
      s.full = false ∧ ∃ ch, (s.writeRound p addr n i src).core = (s.put ch).core := by
  unfold PipeSys.writeRound
  split
  · exact .inl rfl
  · split
    · exact .inl rfl
    · next hfull =>
      split
      · exact .inl rfl
      · next hopen =>
        cases src with
        | none => exact .inl rfl
        | some ch =>
          have hro : s.readopen = true := by simpa using hopen
          rw [hro, Bool.and_true, Bool.not_eq_true] at hfull
          exact .inr ⟨hfull, ch, rfl⟩

private theorem copyRound_cases (s : PipeSys) (p addr : Nat) (n : Int) (i : Nat) (dst : Bool) :
    (n ≤ i ∨ s.empty = true) ∧ (s.copyRound p addr n i dst).core = s.core ∨
      i < n ∧ s.empty = false ∧ (s.copyRound p addr n i dst).core = (s.take dst).core := by
  unfold PipeSys.copyRound
  split
  · next hn => exact .inl ⟨.inl hn, rfl⟩
  · next hn =>
    split
    · next hemp => exact .inl ⟨.inr hemp, rfl⟩
    · next hemp =>
      rw [Bool.not_eq_true] at hemp
      refine .inr ⟨Int.not_le.mp hn, hemp, ?_⟩
      cases dst with
      | true => rfl
      | false => rfl

private theorem close_core (s : PipeSys) (writable : Bool) :
    (s.close writable).core = s.core := by
  unfold PipeSys.close
  cases writable with
  | true =>
    rw [if_pos rfl]
    dsimp only
    split
    · rfl
    · rfl
  | false =>
    rw [if_neg Bool.false_ne_true]
    dsimp only
    split
    · rfl
    · rfl

/-- A step leaves the queue alone, puts a byte, or takes one, which is lost exactly when the
`copyout` fails. -/
theorem pipeStep_cases {s t : PipeSys} {a : PipeAct} (h : PipeStep s a t) :
    (¬ CopyoutFails s a ∧ t.core = s.core) ∨
    (¬ CopyoutFails s a ∧ s.full = false ∧ ∃ ch, t.core = (s.put ch).core) ∨
    (¬ CopyoutFails s a ∧ s.empty = false ∧ t.core = (s.take true).core) ∨
    (CopyoutFails s a ∧ s.empty = false ∧ t.core = (s.take false).core) := by
  have hstep := h.2
  cases a with
  | callWrite p addr n =>
    simp only [PipeSys.step, Option.ite_none_right_eq_some, Option.some.injEq] at hstep
    exact .inl ⟨not_copyoutFails (by rintro _ ⟨⟩), hstep.2 ▸ rfl⟩
  | callRead p addr n =>
    simp only [PipeSys.step, Option.ite_none_right_eq_some, Option.some.injEq] at hstep
    exact .inl ⟨not_copyoutFails (by rintro _ ⟨⟩), hstep.2 ▸ rfl⟩
  | writeRound p src =>
    have hno : ¬ CopyoutFails s (.writeRound p src) := not_copyoutFails (by rintro _ ⟨⟩)
    simp only [PipeSys.step] at hstep
    split at hstep
    · next addr n i hcall =>
      cases hstep
      rcases writeRound_cases s p addr n i src with hcore | ⟨hfull, ch, hcore⟩
      · exact .inl ⟨hno, hcore⟩
      · exact .inr (.inl ⟨hno, hfull, ch, hcore⟩)
    · cases hstep
  | readRound p dst =>
    simp only [PipeSys.step] at hstep
    split at hstep
    · next addr n hcall =>
      refine .inl ⟨?_, ?_⟩
      · rintro ⟨_, _, _, _, ⟨⟩, hc, _⟩
        cases hcall.symm.trans hc
      · split at hstep
        · cases hstep
          rfl
        · cases hstep
          rfl
    · next addr n i hcall =>
      cases hstep
      rcases copyRound_cases s p addr n i dst with ⟨hstop, hcore⟩ | ⟨hlt, hemp, hcore⟩
      · refine .inl ⟨?_, hcore⟩
        rintro ⟨_, _, _, _, ⟨⟩, hc, hlt, hemp⟩
        cases hcall.symm.trans hc
        rcases hstop with hn | hemp'
        · omega
        · rw [hemp] at hemp'
          cases hemp'
      · cases dst with
        | true => exact .inr (.inr (.inl ⟨not_copyoutFails (by rintro _ ⟨⟩), hemp, hcore⟩))
        | false => exact .inr (.inr (.inr ⟨⟨p, addr, n, i, rfl, hcall, hlt, hemp⟩, hemp, hcore⟩))
    · cases hstep
  | resume p interrupted =>
    refine .inl ⟨not_copyoutFails (by rintro _ ⟨⟩), ?_⟩
    simp only [PipeSys.step] at hstep
    split at hstep
    · split at hstep
      · cases hstep
      · split at hstep
        · cases hstep
          rfl
        · cases hstep
          rfl
    · split at hstep
      · cases hstep
      · split at hstep
        · cases hstep
          rfl
        · cases hstep
          rfl
    · cases hstep
      rfl
    · cases hstep
  | pipeclose writable =>
    simp only [PipeSys.step, Option.ite_none_right_eq_some, Option.some.injEq] at hstep
    exact .inl ⟨not_copyoutFails (by rintro _ ⟨⟩), hstep.2 ▸ close_core s writable⟩

/-! ### The counters -/

/-- The counters are 32-bit numbers and at most `PIPESIZE` apart, and no byte comes from
nowhere. -/
structure PipeInv (s : PipeSys) : Prop where
  nread : s.nread < 2 ^ 32
  nwrite : s.nwrite < 2 ^ 32
  bound : s.count ≤ pipesize
  known : s.delivered.length + s.count ≤ s.accepted.length

/-- The bytes that were accepted, are not in the pipe, and reached no reader. -/
def PipeSys.lost (s : PipeSys) : Nat := s.accepted.length - (s.delivered.length + s.count)

private theorem core_eq {s t : PipeSys} (h : t.core = s.core) : t.data = s.data ∧
    t.nread = s.nread ∧ t.nwrite = s.nwrite ∧ t.accepted = s.accepted ∧
    t.delivered = s.delivered := by
  simpa [PipeSys.core] using h

-- The invariant, the loss and the law depend on the queue only.
private theorem core_congr {s t : PipeSys} (h : t.core = s.core) :
    t.count = s.count ∧ t.queued = s.queued ∧ t.lost = s.lost ∧ (PipeInv s → PipeInv t) ∧
      (Fifo s → Fifo t) := by
  obtain ⟨hd, hr, hw, ha, hl⟩ := core_eq h
  have hc : t.count = s.count := by rw [PipeSys.count, PipeSys.count, hr, hw]
  have hq : t.queued = s.queued := by rw [PipeSys.queued, PipeSys.queued, hd, hr, hc]
  refine ⟨hc, hq, ?_, ?_, ?_⟩
  · rw [PipeSys.lost, PipeSys.lost, ha, hl, hc]
  · intro hi
    constructor
    · rw [hr]
      exact hi.nread
    · rw [hw]
      exact hi.nwrite
    · rw [hc]
      exact hi.bound
    · rw [hl, hc, ha]
      exact hi.known
  · intro hf
    constructor
    · rw [hl, ha]
      exact hf.order
    · rw [hl, ha, hq]
      exact hf.lossless
    · rw [hc]
      exact hf.bound

private theorem pipesize_dvd : pipesize ∣ 2 ^ 32 := by decide

/-- A byte that is put is the last one of the queue. -/
theorem put_spec {s : PipeSys} (h : PipeInv s) (hf : s.full = false) (ch : UInt8) :
    (s.put ch).count = s.count + 1 ∧ s.count < pipesize ∧
      (s.put ch).queued = s.queued ++ [ch] := by
  have hr := h.nread
  have hw := h.nwrite
  have hb := h.bound
  have hne : ¬ s.nwrite = (s.nread + pipesize) % 2 ^ 32 := by
    simpa [PipeSys.full] using hf
  have hlt : s.count < pipesize := by
    simp only [PipeSys.count, pipesize] at hb hne ⊢
    omega
  have hc : (s.put ch).count = s.count + 1 := by
    simp only [PipeSys.count, PipeSys.put, pipesize] at hb hlt ⊢
    omega
  have hpos : s.nwrite % pipesize = (s.nread + s.count) % pipesize := by
    simp only [PipeSys.count, pipesize]
    omega
  refine ⟨hc, hlt, ?_⟩
  rw [PipeSys.queued, hc]
  show ring pipesize (Function.update s.data (s.nwrite % pipesize) ch) s.nread (s.count + 1) = _
  rw [hpos, ring_push _ _ _ hlt]
  rfl

/-- A byte that is taken was the first one of the queue. -/
theorem take_spec {s : PipeSys} (h : PipeInv s) (he : s.empty = false) (dst : Bool) :
    s.count = (s.take dst).count + 1 ∧
      s.queued = s.data (s.nread % pipesize) :: (s.take dst).queued := by
  have hr := h.nread
  have hw := h.nwrite
  have hne : ¬ s.nread = s.nwrite := by simpa [PipeSys.empty] using he
  have hc : s.count = (s.take dst).count + 1 := by
    simp only [PipeSys.count, PipeSys.take]
    omega
  refine ⟨hc, ?_⟩
  rw [PipeSys.queued, hc, ring_pop, PipeSys.queued]
  show _ = _ :: ring pipesize s.data ((s.nread + 1) % 2 ^ 32) (s.take dst).count
  rw [ring_mod pipesize_dvd]

/-! ### The law over whole runs -/

/-- One step keeps the invariant. A byte is lost exactly when the `copyout` fails, and without
that the law is kept. -/
theorem pipeStep_spec {s t : PipeSys} {a : PipeAct} (h : PipeStep s a t) (hi : PipeInv s) :
    PipeInv t ∧ (CopyoutFails s a → t.lost = s.lost + 1) ∧
      (¬ CopyoutFails s a → t.lost = s.lost ∧ (Fifo s → Fifo t)) := by
  have hknown := hi.known
  have hbound := hi.bound
  rcases pipeStep_cases h with ⟨hno, hcore⟩ | ⟨hno, hfull, ch, hcore⟩ | ⟨hno, hemp, hcore⟩ |
      ⟨hyes, hemp, hcore⟩
  · obtain ⟨_, _, hlost, hinv, hfifo⟩ := core_congr hcore
    exact ⟨hinv hi, fun hx ↦ absurd hx hno, fun _ ↦ ⟨hlost, hfifo⟩⟩
  · obtain ⟨_, _, hlost, hinv, hfifo⟩ := core_congr hcore
    obtain ⟨hc, hlt, hq⟩ := put_spec hi hfull ch
    have hacc : (s.put ch).accepted = s.accepted ++ [ch] := rfl
    have hdel : (s.put ch).delivered = s.delivered := rfl
    refine ⟨hinv ⟨hi.nread, Nat.mod_lt _ (by decide), by omega, ?_⟩, fun hx ↦ absurd hx hno,
      fun _ ↦ ⟨?_, fun hf ↦ hfifo ⟨?_, ?_, by omega⟩⟩⟩
    · rw [hacc, hdel, List.length_append, List.length_singleton]
      omega
    · rw [hlost, PipeSys.lost, PipeSys.lost, hacc, hdel, hc, List.length_append,
        List.length_singleton]
      omega
    · rw [hacc, hdel]
      exact hf.order.trans (List.prefix_append _ _)
    · rw [hacc, hdel, hq, hf.lossless, List.append_assoc]
  · obtain ⟨_, _, hlost, hinv, hfifo⟩ := core_congr hcore
    obtain ⟨hc, hq⟩ := take_spec hi hemp true
    have hacc : (s.take true).accepted = s.accepted := rfl
    have hdel : (s.take true).delivered = s.delivered ++ [s.data (s.nread % pipesize)] := rfl
    refine ⟨hinv ⟨Nat.mod_lt _ (by decide), hi.nwrite, by omega, ?_⟩, fun hx ↦ absurd hx hno,
      fun _ ↦ ⟨?_, fun hf ↦ hfifo ?_⟩⟩
    · rw [hacc, hdel, List.length_append, List.length_singleton]
      omega
    · rw [hlost, PipeSys.lost, PipeSys.lost, hacc, hdel, List.length_append,
        List.length_singleton]
      omega
    · have hall : (s.take true).accepted = (s.take true).delivered ++ (s.take true).queued := by
        rw [hacc, hdel, hf.lossless, hq, List.append_assoc, List.singleton_append]
      refine ⟨?_, hall, by omega⟩
      rw [hall]
      exact List.prefix_append _ _
  · obtain ⟨_, _, hlost, hinv, _⟩ := core_congr hcore
    obtain ⟨hc, hq⟩ := take_spec hi hemp false
    have hacc : (s.take false).accepted = s.accepted := rfl
    have hdel : (s.take false).delivered = s.delivered := rfl
    refine ⟨hinv ⟨Nat.mod_lt _ (by decide), hi.nwrite, by omega, ?_⟩, fun _ ↦ ?_,
      fun hx ↦ absurd hyes hx⟩
    · rw [hacc, hdel]
      omega
    · rw [hlost, PipeSys.lost, PipeSys.lost, hacc, hdel]
      omega

/-- A step in which no `copyout` of a byte fails. -/
def DeliveringStep (s : PipeSys) (a : PipeAct) (t : PipeSys) : Prop :=
  PipeStep s a t ∧ ¬ CopyoutFails s a

/-- A new pipe is empty. -/
theorem pipealloc_spec (data : Nat → UInt8) :
    PipeInv (pipealloc data) ∧ Fifo (pipealloc data) := by
  have hc : (pipealloc data).count = 0 := by
    show (0 + 2 ^ 32 - 0) % 2 ^ 32 = 0
    decide
  constructor
  · constructor
    · exact Nat.two_pow_pos 32
    · exact Nat.two_pow_pos 32
    · rw [hc]
      exact Nat.zero_le _
    · rw [hc]
      exact Nat.le_refl _
  · constructor
    · exact List.prefix_rfl
    · rw [PipeSys.queued, hc]
      rfl
    · rw [hc]
      exact Nat.zero_le _

-- Nothing that was lost comes back, so a run without loss lost nothing in any step.
private theorem runs_lost {s t : PipeSys} {as : List PipeAct} (h : Runs PipeStep s as t)
    (hi : PipeInv s) : s.lost ≤ t.lost ∧ (t.lost = s.lost → Runs DeliveringStep s as t) := by
  induction h with
  | nil s => exact ⟨Nat.le_refl _, fun _ ↦ .nil s⟩
  | @cons s t u a as head tail ih =>
    obtain ⟨hi', hfail, hok⟩ := pipeStep_spec head hi
    obtain ⟨hle, hrest⟩ := ih hi'
    by_cases hf : CopyoutFails s a
    · have := hfail hf
      constructor
      · omega
      · intro heq
        omega
    · have := (hok hf).1
      refine ⟨by omega, ?_⟩
      intro heq
      exact .cons ⟨head, hf⟩ (hrest (by omega))

private theorem Fifo.lost_eq_zero {s : PipeSys} (h : Fifo s) : s.lost = 0 := by
  have hlen := congrArg List.length h.lossless
  rw [List.length_append, PipeSys.queued, length_ring] at hlen
  rw [PipeSys.lost]
  omega

/-- After every run from a new pipe, of any number of readers and writers, the FIFO law holds
exactly when no `copyout` of a byte failed in the run. -/
theorem pipe_fifo_iff {data : Nat → UInt8} {as : List PipeAct} {s : PipeSys}
    (h : Runs PipeStep (pipealloc data) as s) :
    Fifo s ↔ Runs DeliveringStep (pipealloc data) as s := by
  obtain ⟨hi, hf⟩ := pipealloc_spec data
  constructor
  · intro hs
    apply (runs_lost h hi).2
    rw [hs.lost_eq_zero, hf.lost_eq_zero]
  · intro hrun
    have hboth : PipeInv s ∧ Fifo s := by
      refine Runs.invariant (fun s ↦ PipeInv s ∧ Fifo s) ?_ hrun ⟨hi, hf⟩
      intro s a t hs hstep
      obtain ⟨hi', _, hok⟩ := pipeStep_spec hstep.1 hs.1
      exact ⟨hi', (hok hstep.2).2 hs.2⟩
    exact hboth.2

set_option maxRecDepth 4000 in
/-- A writer puts two bytes and a reader takes the first of them. -/
theorem pipe_fifo_iff_small : ∃ s, Runs PipeStep (pipealloc fun _ ↦ 0)
    [.callWrite 1 0 2, .writeRound 1 (some 7), .writeRound 1 (some 8), .writeRound 1 none,
      .callRead 2 0 1, .readRound 2 true, .readRound 2 true] s ∧ Fifo s := by
  have hrun : ∃ s, Runs DeliveringStep (pipealloc fun _ ↦ 0)
      [.callWrite 1 0 2, .writeRound 1 (some 7), .writeRound 1 (some 8), .writeRound 1 none,
        .callRead 2 0 1, .readRound 2 true, .readRound 2 true] s := by
    refine ⟨_, .cons ⟨⟨rfl, rfl⟩, ?_⟩ (.cons ⟨⟨rfl, rfl⟩, ?_⟩ (.cons ⟨⟨rfl, rfl⟩, ?_⟩
      (.cons ⟨⟨rfl, rfl⟩, ?_⟩ (.cons ⟨⟨rfl, rfl⟩, ?_⟩ (.cons ⟨⟨rfl, rfl⟩, ?_⟩
        (.cons ⟨⟨rfl, rfl⟩, ?_⟩ (.nil _)))))))⟩ <;> exact not_copyoutFails (by simp)
  obtain ⟨s, hs⟩ := hrun
  have hall := Runs.mono (fun _ _ _ h ↦ h.1) hs
  exact ⟨s, hall, (pipe_fifo_iff hall).mpr hs⟩

set_option maxRecDepth 4000 in
/-- One byte was written, and the reader's buffer cannot be written: the byte is gone. -/
theorem not_fifo_small : ∃ s, Runs PipeStep (pipealloc fun _ ↦ 0)
    [.callWrite 1 0 1, .writeRound 1 (some 7), .writeRound 1 none, .callRead 2 0 1,
      .readRound 2 true, .readRound 2 false] s ∧ ¬ Fifo s := by
  refine ⟨_, .cons ⟨rfl, rfl⟩ (.cons ⟨rfl, rfl⟩ (.cons ⟨rfl, rfl⟩ (.cons ⟨rfl, rfl⟩
    (.cons ⟨rfl, rfl⟩ (.cons ⟨rfl, rfl⟩ (.nil _)))))), ?_⟩
  intro hf
  exact absurd hf.lossless (by decide)

end Xv6K210.Ipc
