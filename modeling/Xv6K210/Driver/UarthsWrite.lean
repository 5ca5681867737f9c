import Mathlib.Data.List.Basic
import Xv6K210.Base.Runs
import Xv6K210.Driver.Ringbuffer

/-!
# Writing to the UART

Source `kernel/driver/uarths.c:37, 48–52, 303–357, 410–421, 477–488`. Writers put bytes into a ring,
out of which a writer or the interrupt handler hands them to the hardware as far as it takes them. A
writer sleeps while the ring is full, a process that flushes while it is not empty. The sections
under the lock up to a `sleep` are steps.
-/

namespace Xv6K210.Uarths

open Base Driver Function

/-- `UARTHS_TX_BUF_SIZE`. -/
def txBufSize : UInt32 := 4096

/-- `struct uarths_tx`, the interrupt enable bit, and what the hardware was given. -/
structure Tx where
  ring : Ringbuffer
  enabled : Bool
  line : List UInt8

/-- `uarths_tx_service`, where the hardware takes at most so many bytes. -/
def txService : Nat → Tx → Option Tx
  | 0, t => some { t with enabled := !t.ring.empty }
  | n + 1, t =>
    if t.ring.empty then some { t with enabled := !t.ring.empty }
    else t.ring.pop.bind fun x ↦ txService n { t with ring := x.2, line := t.line ++ x.1.toList }

/-- The loop of `uarths_write` up to a full ring, with the number of bytes written; `takes` is what
the hardware takes at each turn. -/
def writeLoop : List UInt8 → List Nat → Tx → Option (Tx × Nat)
  | [], _, t => some (t, 0)
  | c :: cs, takes, t =>
    if t.ring.full then some (t, 0)
    else
      (t.ring.push c).bind fun x ↦ (txService (takes.headD 0) { t with ring := x.2 }).bind fun t ↦
        (writeLoop cs takes.tail t).map fun y ↦ (y.1, y.2 + 1)

/-- Where a process is in `uarths_write` or `uarths_flush_tx`. -/
inductive TxPc where
  | out
  /-- before the lock -/
  | entered (src : List UInt8)
  /-- in the loop of `uarths_tx_wait_room` -/
  | waiting (src : List UInt8) (done : Nat) (asleep : Bool)
  | flushing (asleep : Bool)
  deriving DecidableEq, Repr

def TxPc.awake : TxPc → TxPc
  | .waiting src done _ => .waiting src done false
  | .flushing _ => .flushing false
  | pc => pc

def TxPc.asleep : TxPc → Bool
  | .waiting _ _ asleep | .flushing asleep => asleep
  | _ => false

/-- The bytes that the call has written. -/
def TxPc.written : TxPc → List UInt8
  | .waiting src done _ => src.take done
  | _ => []

/-- The transmitter and the processes that write, with a record: the bytes that went into the ring,
with their writers, and what the calls of each process have reported as written. -/
structure Transmitter (Q : Type) where
  tx : Tx
  pc : Q → TxPc
  accepted : List (Q × UInt8)
  told : Q → List UInt8

variable {Q : Type}

/-- `uarthsinit`. -/
def Transmitter.init (buf : Nat → UInt8) : Transmitter Q where
  tx := ⟨ringbufferInit buf 4097 txBufSize, false, []⟩
  pc := fun _ ↦ .out
  accepted := []
  told := fun _ ↦ []

/-- A step. -/
inductive TxAct (Q : Type) where
  /-- a process calls `uarths_write` -/
  | write (q : Q) (src : List UInt8)
  /-- a process calls `uarths_flush_tx` -/
  | flush (q : Q)
  /-- the process goes on; a signal may be pending behind the `sleep` that ends and before the next, or the
  kernel may have panicked -/
  | run (q : Q) (takes : List Nat) (woken pending : Bool)
  /-- a process is woken up for another reason -/
  | wake (q : Q)
  /-- the sending half of `uarths_dw_isr` -/
  | isr (takes : Nat)

section

variable [DecidableEq Q]

def Transmitter.goto (s : Transmitter Q) (q : Q) (pc : TxPc) : Transmitter Q :=
  { s with pc := update s.pc q pc }

/-- `uarths_write` returns. -/
def Transmitter.ret (s : Transmitter Q) (q : Q) (src : List UInt8) (r : Int) : Transmitter Q :=
  { s.goto q .out with told := update s.told q (s.told q ++ src.take r.toNat) }

/-- `uarths_write` from the byte `done` on, up to its next `sleep`. -/
def Transmitter.push (s : Transmitter Q) (q : Q) (src : List UInt8) (done : Nat) (takes : List Nat)
    (pending : Bool) : Option (Transmitter Q) :=
  (writeLoop (src.drop done) takes s.tx).map fun x ↦
    let n := done + x.2
    let s' := { s with
      tx := x.1
      accepted := s.accepted ++ ((src.drop done).take x.2).map fun c ↦ (q, c)
      pc := if 0 < x.2 then fun q ↦ (s.pc q).awake else s.pc }
    if n = src.length then s'.ret q src n
    else if pending then s'.ret q src (if 0 < n then (n : Int) else -1)
    else s'.goto q (.waiting src n true)

/-- The next part of a call. -/
def Transmitter.run (s : Transmitter Q) (q : Q) (takes : List Nat) (woken pending : Bool) :
    Option (Transmitter Q) :=
  match s.pc q with
  | .out => none
  | .entered src => s.push q src 0 takes pending
  | .waiting src done asleep =>
    if asleep then none
    else if woken then some (s.ret q src (if 0 < done then (done : Int) else -1))
    else s.push q src done takes pending
  | .flushing asleep =>
    if asleep then none
    else if s.tx.ring.empty then some (s.goto q .out)
    else
      (txService (takes.headD 0) s.tx).map fun t ↦
        { s with
          tx := t
          pc := update (fun q ↦ (s.pc q).awake) q
            (if t.ring.empty then .out else .flushing true) }

/-- The effect of a step, where it can be taken. -/
def Transmitter.step (s : Transmitter Q) : TxAct Q → Option (Transmitter Q)
  | .write q src => if s.pc q = .out then some (s.goto q (.entered src)) else none
  | .flush q => if s.pc q = .out then some (s.goto q (.flushing false)) else none
  | .run q takes woken pending => s.run q takes woken pending
  | .wake q => some (s.goto q (s.pc q).awake)
  | .isr takes => (txService takes s.tx).map fun t ↦
    { s with tx := t, pc := fun q ↦ (s.pc q).awake }

def Transmitter.Step (s : Transmitter Q) (a : TxAct Q) (t : Transmitter Q) : Prop :=
    s.step a = some t

end

/-! ### The loops -/

/-- The interrupt is on where the ring holds bytes. -/
structure Tx.Holds (t : Tx) (items : List UInt8) : Prop where
  ring : Driver.Holds t.ring items
  capacity : t.ring.capacity = txBufSize
  enabled : t.enabled = !t.ring.empty

/-- The ring is empty with its queue. -/
theorem Tx.Holds.empty_iff {t : Tx} {items : List UInt8} (h : t.Holds items) :
    t.ring.empty = true ↔ items = [] :=
  h.ring.empty_iff.trans List.length_eq_zero_iff

/-- The hardware gets the oldest bytes. -/
theorem txService_eq {t : Tx} {items : List UInt8} (h : Driver.Holds t.ring items)
    (hcap : t.ring.capacity = txBufSize) (n : Nat) :
    ∃ t', txService n t = some t' ∧ t'.Holds (items.drop n) ∧ t'.line = t.line ++ items.take n := by
  induction n generalizing t items with
  | zero =>
    refine ⟨_, rfl, ⟨h, hcap, rfl⟩, ?_⟩
    rw [List.take_zero, List.append_nil]
  | succ n ih =>
    rw [txService]
    cases items with
    | nil =>
      rw [if_pos (h.empty_iff.mpr rfl)]
      exact ⟨_, rfl, ⟨h, hcap, rfl⟩, (List.append_nil _).symm⟩
    | cons b items =>
      have hempty : ¬ t.ring.empty = true := mt h.empty_iff.mp (Nat.succ_ne_zero _)
      obtain ⟨ring, hpop, hholds, hcap'⟩ := h.pop_cons
      have hring : Driver.Holds ({ t with ring, line := t.line ++ [b] } : Tx).ring items := hholds
      obtain ⟨t', hrun, hholds', hline⟩ := ih hring (hcap'.trans hcap)
      refine ⟨t', ?_, hholds', ?_⟩
      · rw [if_neg hempty, hpop]
        exact hrun
      · rw [hline, List.take_succ_cons]
        exact List.append_assoc t.line [b] (items.take n)

/-- The loop writes the bytes up to a full ring; a byte that it writes is in the ring or has gone to
the hardware. -/
theorem writeLoop_eq {t : Tx} {items : List UInt8} (h : t.Holds items) (cs : List UInt8)
    (takes : List Nat) :
    ∃ t' n items', writeLoop cs takes t = some (t', n) ∧ n ≤ cs.length ∧ t'.Holds items' ∧
      t'.line ++ items' = t.line ++ items ++ cs.take n ∧
      (n < cs.length → items'.length = txBufSize.toNat) ∧ (n = 0 → items' = items) := by
  induction cs generalizing t items takes with
  | nil =>
    exact ⟨t, 0, items, rfl, Nat.le_refl _, h, (List.append_nil _).symm, fun hlt ↦
      absurd hlt (Nat.lt_irrefl _), fun _ ↦ rfl⟩
  | cons c cs ih =>
    rw [writeLoop]
    by_cases hfull : t.ring.full = true
    · have hlen : items.length = txBufSize.toNat := h.capacity ▸ h.ring.full_iff.mp hfull
      rw [if_pos hfull]
      exact ⟨t, 0, items, rfl, Nat.zero_le _, h, by rw [List.take_zero, List.append_nil],
        fun _ ↦ hlen, fun _ ↦ rfl⟩
    · have hroom : items.length < t.ring.capacity.toNat :=
        Nat.lt_of_le_of_ne h.ring.fits (mt h.ring.full_iff.mpr hfull)
      obtain ⟨ring, hpush, hholds, hcap⟩ := h.ring.push_room hroom c
      have hring : Driver.Holds ({ t with ring } : Tx).ring (items ++ [c]) := hholds
      obtain ⟨t1, hservice, hholds1, hline1⟩ :=
        txService_eq hring (hcap.trans h.capacity) (takes.headD 0)
      obtain ⟨t', n, items', hloop, hle, hholds', hline', hstop, -⟩ := ih hholds1 takes.tail
      refine ⟨t', n + 1, items', ?_, Nat.succ_le_succ hle, hholds', ?_, fun hlt ↦
        hstop (Nat.lt_of_succ_lt_succ hlt), fun hzero ↦ absurd hzero (Nat.succ_ne_zero n)⟩
      · rw [if_neg hfull, hpush, Option.bind_some, hservice, Option.bind_some, hloop]
        rfl
      · rw [hline', hline1, List.take_succ_cons, List.append_assoc t.line, List.take_append_drop,
          List.append_assoc, List.append_assoc, List.append_assoc, List.singleton_append]

/-! ### What holds between the steps -/

/-- Where a process can be when the ring holds some bytes. -/
def TxPc.Fits (items : List UInt8) : TxPc → Prop
  | .waiting src done asleep => done ≤ src.length ∧ (asleep = true → items.length = txBufSize.toNat)
  | .flushing asleep => asleep = true → items ≠ []
  | _ => True

/-- A writer that is woken fits any queue. -/
theorem TxPc.Fits.awake {items : List UInt8} {pc : TxPc} (h : pc.Fits items) (items' : List UInt8) :
    pc.awake.Fits items' := by
  cases pc with
  | out => trivial
  | entered src => trivial
  | waiting src done asleep => exact ⟨h.1, fun hfalse ↦ absurd hfalse (by decide)⟩
  | flushing asleep => exact fun hfalse ↦ absurd hfalse (by decide)

private theorem TxPc.written_awake (pc : TxPc) : pc.awake.written = pc.written := by
  cases pc <;> rfl

/-- The bytes of a process. -/
def bytesOf [DecidableEq Q] (q : Q) (l : List (Q × UInt8)) : List UInt8 :=
  (l.filter fun x ↦ x.1 = q).map Prod.snd

/-- What went into the ring has gone to the hardware or is there still, and every process has
reported its bytes, but for those of the call that it is in. -/
structure Transmitter.Sound [DecidableEq Q] (s : Transmitter Q) (items : List UInt8) : Prop where
  holds : s.tx.Holds items
  order : s.tx.line ++ items = s.accepted.map Prod.snd
  mine : ∀ q, bytesOf q s.accepted = s.told q ++ (s.pc q).written
  fits : ∀ q, (s.pc q).Fits items

/-- The same with a process in between, which has written `w` in its call. -/
structure Transmitter.SoundFor [DecidableEq Q] (s : Transmitter Q) (q : Q) (w : List UInt8)
    (items : List UInt8) : Prop where
  holds : s.tx.Holds items
  order : s.tx.line ++ items = s.accepted.map Prod.snd
  own : bytesOf q s.accepted = s.told q ++ w
  mine : ∀ q', q' ≠ q → bytesOf q' s.accepted = s.told q' ++ (s.pc q').written
  fits : ∀ q', q' ≠ q → (s.pc q').Fits items

section

variable [DecidableEq Q] {s : Transmitter Q} {items : List UInt8}

private theorem bytesOf_append (q : Q) (l l' : List (Q × UInt8)) :
    bytesOf q (l ++ l') = bytesOf q l ++ bytesOf q l' := by
  rw [bytesOf, List.filter_append, List.map_append]
  rfl

private theorem bytesOf_self (q : Q) (cs : List UInt8) :
    bytesOf q (cs.map fun c ↦ (q, c)) = cs := by
  induction cs with
  | nil => rfl
  | cons c cs ih =>
    rw [bytesOf, List.map_cons, List.filter_cons_of_pos (by simp), List.map_cons]
    exact congrArg (c :: ·) ih

private theorem bytesOf_of_ne {q q' : Q} (hne : q' ≠ q) (cs : List UInt8) :
    bytesOf q' (cs.map fun c ↦ (q, c)) = [] := by
  have hfilter : ((cs.map fun c ↦ (q, c)).filter fun x ↦ x.1 = q') = [] := by
    rw [List.filter_eq_nil_iff]
    intro x hx
    obtain ⟨c, -, rfl⟩ := List.mem_map.mp hx
    simpa using hne.symm
  rw [bytesOf, hfilter, List.map_nil]

namespace Transmitter

/-- Between its sections a writer has put what it counts. -/
theorem Sound.between (h : s.Sound items) (q : Q) : s.SoundFor q (s.pc q).written items :=
  ⟨h.holds, h.order, h.mine q, fun q' _ ↦ h.mine q', fun q' _ ↦ h.fits q'⟩

/-- A writer goes on to a place that fits. -/
theorem SoundFor.goto {q : Q} {w : List UInt8} (h : s.SoundFor q w items) {pc : TxPc}
    (hw : pc.written = w) (hpc : pc.Fits items) : (s.goto q pc).Sound items := by
  refine ⟨h.holds, h.order, fun q' ↦ ?_, fun q' ↦ ?_⟩
  · change bytesOf q' s.accepted = s.told q' ++ (update s.pc q pc q').written
    by_cases heq : q' = q
    · rw [heq, update_self, hw]
      exact h.own
    · rw [update_of_ne heq]
      exact h.mine q' heq
  · change (update s.pc q pc q').Fits items
    by_cases heq : q' = q
    · rwa [heq, update_self]
    · rw [update_of_ne heq]
      exact h.fits q' heq

/-- A call that returns reports what it has written. -/
theorem SoundFor.ret {q : Q} {w : List UInt8} (h : s.SoundFor q w items) {src : List UInt8}
    {r : Int}
    (hw : src.take r.toNat = w) : (s.ret q src r).Sound items := by
  refine ⟨h.holds, h.order, fun q' ↦ ?_, fun q' ↦ ?_⟩
  · change bytesOf q' s.accepted = update s.told q (s.told q ++ src.take r.toNat) q' ++
      (update s.pc q .out q').written
    by_cases heq : q' = q
    · rw [heq, update_self, update_self, hw]
      exact h.own.trans (List.append_nil _).symm
    · rw [update_of_ne heq, update_of_ne heq]
      exact h.mine q' heq
  · change (update s.pc q .out q').Fits items
    by_cases heq : q' = q
    · rw [heq, update_self]
      trivial
    · rw [update_of_ne heq]
      exact h.fits q' heq

/-- A writer that is interrupted reports -1 when it has written nothing. -/
theorem take_short (src : List UInt8) (n : Nat) :
    src.take (if 0 < n then (n : Int) else -1).toNat = src.take n := by
  split_ifs with hpos
  · rfl
  · rw [Nat.eq_zero_of_not_pos hpos]
    rfl

/-- A writer puts bytes into the ring. -/
theorem Sound.push (h : s.Sound items) {q : Q} {src : List UInt8} {done : Nat}
    (hw : (s.pc q).written = src.take done) (hdone : done ≤ src.length) (takes : List Nat)
    (pending : Bool) : ∃ t items', s.push q src done takes pending = some t ∧ t.Sound items' := by
  obtain ⟨tx, n, items', hloop, hle, hholds, hline, hstop, hsame⟩ :=
    writeLoop_eq h.holds (src.drop done) takes
  rw [List.length_drop] at hle hstop
  have hbetween : ({ s with
      tx
      accepted := s.accepted ++ ((src.drop done).take n).map fun c ↦ (q, c)
      pc := if 0 < n then fun q ↦ (s.pc q).awake else s.pc } : Transmitter Q).SoundFor q
        (src.take (done + n)) items' := by
    refine ⟨hholds, ?_, ?_, fun q' hne ↦ ?_, fun q' _ ↦ ?_⟩
    · rw [List.map_append, List.map_map, ← h.order, hline]
      exact congrArg _ (List.map_id _).symm
    · dsimp only
      rw [bytesOf_append, bytesOf_self, h.mine q, hw, List.append_assoc, ← List.take_add]
    · dsimp only
      rw [bytesOf_append, bytesOf_of_ne hne, List.append_nil, h.mine q']
      split_ifs
      · rw [TxPc.written_awake]
      · rfl
    · dsimp only
      split_ifs with hpos
      · exact (h.fits q').awake items'
      · rw [hsame (Nat.eq_zero_of_not_pos hpos)]
        exact h.fits q'
  rw [Transmitter.push, hloop]
  refine ⟨_, items', rfl, ?_⟩
  dsimp only
  by_cases hend : done + n = src.length
  · rw [if_pos hend]
    exact hbetween.ret rfl
  rw [if_neg hend]
  cases pending with
  | true => exact hbetween.ret (take_short src _)
  | false => exact hbetween.goto rfl ⟨by omega, fun _ ↦ hstop (by omega)⟩

/-- The interrupt sends the first bytes of the queue. -/
theorem Sound.service (h : s.Sound items) (n : Nat) :
    ∃ tx, txService n s.tx = some tx ∧ tx.Holds (items.drop n) ∧
      ({ s with tx, pc := fun q ↦ (s.pc q).awake } : Transmitter Q).Sound (items.drop n) := by
  obtain ⟨tx, hrun, hholds, hline⟩ := txService_eq h.holds.ring h.holds.capacity n
  refine ⟨tx, hrun, hholds, hholds, ?_, fun q ↦ ?_, fun q ↦ (h.fits q).awake _⟩
  · dsimp only
    rw [hline, List.append_assoc, List.take_append_drop]
    exact h.order
  · dsimp only
    rw [TxPc.written_awake]
    exact h.mine q

/-- A call goes on unless it sleeps. -/
theorem Sound.run (h : s.Sound items) {q : Q} (hout : s.pc q ≠ .out)
    (hawake : (s.pc q).asleep = false) (takes : List Nat) (woken pending : Bool) :
    ∃ t items', s.run q takes woken pending = some t ∧ t.Sound items' := by
  have hfits := h.fits q
  have hbetween := h.between q
  unfold Transmitter.run
  cases hpc : s.pc q with
  | out => exact absurd hpc hout
  | entered src => exact h.push (by rw [hpc]; rfl) (Nat.zero_le _) takes pending
  | waiting src done asleep =>
    rw [hpc] at hawake hfits hbetween
    cases (hawake : asleep = false)
    dsimp only
    rw [if_neg Bool.false_ne_true]
    cases woken with
    | true => exact ⟨_, items, rfl, hbetween.ret (take_short src done)⟩
    | false => exact h.push (by rw [hpc]; rfl) hfits.1 takes pending
  | flushing asleep =>
    rw [hpc] at hawake hbetween
    cases (hawake : asleep = false)
    dsimp only
    rw [if_neg Bool.false_ne_true]
    by_cases hempty : s.tx.ring.empty = true
    · rw [if_pos hempty]
      exact ⟨_, items, rfl, hbetween.goto rfl trivial⟩
    · obtain ⟨tx, hservice, hholds, hsound⟩ := h.service (takes.headD 0)
      rw [if_neg hempty, hservice]
      have hown := hsound.between q
      refine ⟨_, _, rfl, hown.goto ?_ ?_⟩
      · dsimp only
        rw [hpc]
        split_ifs <;> rfl
      · split_ifs with hdrained
        · trivial
        · exact fun _ ↦ mt hholds.empty_iff.mpr hdrained

/-- A process that goes on is in a call, and awake. -/
theorem awake_of_run {q : Q} {takes : List Nat} {woken pending : Bool} {t : Transmitter Q}
    (h : s.run q takes woken pending = some t) : s.pc q ≠ .out ∧ (s.pc q).asleep = false := by
  unfold Transmitter.run at h
  cases hpc : s.pc q with
  | out =>
    rw [hpc] at h
    cases h
  | entered src => exact ⟨by rintro ⟨⟩, rfl⟩
  | waiting src done asleep =>
    rw [hpc] at h
    cases asleep with
    | false => exact ⟨by rintro ⟨⟩, rfl⟩
    | true => cases h
  | flushing asleep =>
    rw [hpc] at h
    cases asleep with
    | false => exact ⟨by rintro ⟨⟩, rfl⟩
    | true => cases h

/-- Every step keeps the transmitter sound. -/
theorem Sound.step (h : s.Sound items) {a : TxAct Q} {t : Transmitter Q} (hstep : s.Step a t) :
    ∃ items', t.Sound items' := by
  unfold Transmitter.Step at hstep
  cases a with
  | write q src =>
    rw [Transmitter.step] at hstep
    split_ifs at hstep with hout
    cases hstep
    exact ⟨items, (h.between q).goto (by rw [hout]; rfl) trivial⟩
  | flush q =>
    rw [Transmitter.step] at hstep
    split_ifs at hstep with hout
    cases hstep
    exact ⟨items, (h.between q).goto (by rw [hout]; rfl) fun hfalse ↦ absurd hfalse (by decide)⟩
  | run q takes woken pending =>
    obtain ⟨hout, hawake⟩ := awake_of_run hstep
    obtain ⟨t', items', ht', hsound⟩ := h.run hout hawake takes woken pending
    cases ht'.symm.trans hstep
    exact ⟨items', hsound⟩
  | wake q =>
    cases hstep
    exact ⟨items, (h.between q).goto (TxPc.written_awake _) ((h.fits q).awake items)⟩
  | isr n =>
    obtain ⟨tx, hservice, -, hsound⟩ := h.service n
    rw [Transmitter.step, hservice] at hstep
    cases hstep
    exact ⟨_, hsound⟩

/-- The transmitter is sound at first. -/
theorem sound_init (buf : Nat → UInt8) : (Transmitter.init buf : Transmitter Q).Sound [] where
  holds := ⟨holds_init (by decide) (by decide) buf, rfl, rfl⟩
  order := rfl
  mine := fun _ ↦ rfl
  fits := fun _ ↦ trivial

/-- The transmitter is sound after every run. -/
theorem sound_of_runs {buf : Nat → UInt8} {as : List (TxAct Q)}
    (h : Runs Transmitter.Step (Transmitter.init buf) as s) : ∃ items, s.Sound items :=
  h.invariant (fun s ↦ ∃ items, s.Sound items) (fun _ _ _ ⟨_, hs⟩ hstep ↦ hs.step hstep)
    ⟨[], sound_init buf⟩

end Transmitter

/-- However calls, interrupts and the hardware are interleaved, what the hardware was given and what
is in the ring are the bytes that went into the ring, in their order, and those of each process are
what its calls have reported as written, with what the call that it is in has written so far. -/
theorem writes_in_order {buf : Nat → UInt8} {as : List (TxAct Q)}
    (h : Runs Transmitter.Step (Transmitter.init buf) as s) :
    ∃ items, Driver.Holds s.tx.ring items ∧ s.tx.line ++ items = s.accepted.map Prod.snd ∧
      ∀ q, bytesOf q s.accepted = s.told q ++ (s.pc q).written := by
  obtain ⟨items, hs⟩ := Transmitter.sound_of_runs h
  exact ⟨items, hs.holds.ring, hs.order, hs.mine⟩

/-- In every state of a run, a process that is in a call can go on, whatever signals are pending and
whatever the hardware takes, or the ring holds bytes and the interrupt is on that comes when the
hardware takes one. -/
theorem write_never_stuck {buf : Nat → UInt8} {as : List (TxAct Q)}
    (h : Runs Transmitter.Step (Transmitter.init buf) as s) {q : Q} (hq : s.pc q ≠ .out) :
    (∀ takes woken pending, ∃ t, s.Step (.run q takes woken pending) t) ∨
      s.tx.ring.used ≠ 0 ∧ s.tx.enabled = true := by
  obtain ⟨items, hs⟩ := Transmitter.sound_of_runs h
  cases hasleep : (s.pc q).asleep with
  | false =>
    refine .inl fun takes woken pending ↦ ?_
    obtain ⟨t, -, hrun, -⟩ := hs.run hq hasleep takes woken pending
    exact ⟨t, hrun⟩
  | true =>
    have hne : items ≠ [] := by
      have hfits := hs.fits q
      cases hpc : s.pc q with
      | out => exact absurd hpc hq
      | entered src =>
        rw [hpc] at hasleep
        cases hasleep
      | waiting src done asleep =>
        rw [hpc] at hfits hasleep
        rintro rfl
        exact absurd (hfits.2 hasleep) (by decide)
      | flushing asleep =>
        rw [hpc] at hfits hasleep
        exact hfits hasleep
    refine .inr ⟨fun hzero ↦ hne (List.length_eq_zero_iff.mp ?_), ?_⟩
    · rw [← hs.holds.ring.used_toNat, hzero]
      rfl
    · rw [hs.holds.enabled, Bool.not_eq_true', ← Bool.not_eq_true]
      exact mt hs.holds.empty_iff.mp hne

end

/-! ### Two writers -/

/-- A step that computes is a step. -/
theorem Transmitter.step_of_some (s : Transmitter Bool) (a : TxAct Bool) (t : Transmitter Bool)
    (h : s.step a = some t) : s.Step a t := h

/-- Two writers put three bytes. -/
theorem writes_in_order_small : ∃ as s items,
    Runs Transmitter.Step (Transmitter.init fun _ ↦ 0 : Transmitter Bool) as s ∧
    s.accepted.map Prod.snd = [7, 8, 9] ∧ s.tx.line ++ items = s.accepted.map Prod.snd ∧
    bytesOf true s.accepted = s.told true ++ (s.pc true).written := by
  obtain ⟨s, hrun, hcheck⟩ := exists_runs Transmitter.step_of_some (Transmitter.init fun _ ↦ 0)
    [.write true [7, 8], .run true [1] false false, .write false [9], .run false [] false false,
      .isr 5] (fun s ↦ s.accepted.map Prod.snd = [7, 8, 9]) (by decide)
  obtain ⟨items, -, horder, hmine⟩ := writes_in_order hrun
  exact ⟨_, s, items, hrun, of_decide_eq_true hcheck, horder, hmine true⟩

/-- A writer sleeps, and can go on. -/
theorem write_never_stuck_small : ∃ as s,
    Runs Transmitter.Step (Transmitter.init fun _ ↦ 0 : Transmitter Bool) as s ∧
    (s.pc false).asleep = true ∧
    ((∀ takes woken pending, ∃ t, s.Step (.run false takes woken pending) t) ∨
      s.tx.ring.used ≠ 0 ∧ s.tx.enabled = true) := by
  obtain ⟨s, hrun, hcheck⟩ := exists_runs Transmitter.step_of_some (Transmitter.init fun _ ↦ 0)
    [.write true [7, 8], .run true [] false false, .flush false, .run false [1] false false]
    (fun s ↦ s.pc false ≠ .out ∧ (s.pc false).asleep = true) (by decide)
  obtain ⟨hout, hasleep⟩ := of_decide_eq_true hcheck
  exact ⟨_, s, hrun, hasleep, write_never_stuck hrun hout⟩

end Xv6K210.Uarths
