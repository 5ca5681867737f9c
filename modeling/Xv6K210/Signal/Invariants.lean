import Xv6K210.Signal.Machine

/-!
# Dispositions, pending signals and the mask

What each act does to the signal fields of a process, and two invariants of
these fields: an ignored signal is never pending, and the mask blocks the signal that is being
handled.
-/

namespace Xv6K210.Signal

open Xv6K210.Base Function

variable {N : Nat}

/-- The signal fields of a process after an act. -/
def Act.signals (p : Proc N) : Act N → Signals
  | .signal signum handler => (p.signalSetHandler signum handler).1.toSignals
  | .sigreturn => p.signalSigreturn.1.toSignals
  | .execReset => p.signalResetOnExec.toSignals
  | .deliver => p.signalDeliver.toSignals
  | .mark signum => (p.signalMarkLocked signum).toSignals
  | .born parent _ _ => (Proc.signalProcFork parent p).toSignals
  | .free => p.signalProcInit.toSignals
  | _ => p.toSignals

/-- Only the functions of `signal.c` write the signal fields. -/
theorem Act.effect_signals (p : Proc N) (a : Act N) : (a.effect p).toSignals = a.signals p := by
  cases a with
  | trap cause =>
    change (p.usertrap cause).toSignals = p.toSignals
    rw [Proc.usertrap]
    split
    next =>
      cases cause with
      | ecall =>
        dsimp only
        split <;> rfl
      | device => rfl
      | exception => rfl
    next => rfl
  | store =>
    change (p.storeResult).toSignals = p.toSignals
    rw [Proc.storeResult]
    split <;> rfl
  | grab =>
    change (p.grabParent).toSignals = p.toSignals
    rw [Proc.grabParent]
    split <;> rfl
  | zombie =>
    change (p.becomeZombie).toSignals = p.toSignals
    rw [Proc.becomeZombie]
    split <;> rfl
  | sleep chan interruptible =>
    change (p.sleepOn chan interruptible).toSignals = p.toSignals
    rw [Proc.sleepOn]
    split <;> rfl
  | schedule =>
    change (p.run).toSignals = p.toSignals
    rw [Proc.run]
    split <;> rfl
  | wakeup chan =>
    change (p.wake chan).toSignals = p.toSignals
    rw [Proc.wake]
    split <;> rfl
  | _ => rfl

namespace World

/-- A property of the record of a process that the acts of a step preserve holds of it after the
step. -/
theorem Step.invariant {w w' : World N} {op : Op N} (h : Step w op w') (inv : Proc N → Prop)
    {j : Fin N} (hact : ∀ p a, op.mayDo w j a → a.ready p → inv p → inv (a.effect p))
    (hw : inv (w.procs j)) : inv (w'.procs j) := by
  obtain ⟨as, hruns, has⟩ := Step.acts h j
  apply hruns.invariant_of inv ?_ has hw
  intro p a p' hmay hp hstep
  obtain ⟨hready, rfl⟩ := actStep_iff.mp hstep
  exact hact p a hmay hready hp

/-- A new process is the child of the process that forks. -/
theorem mayDo_born {w : World N} {op : Op N} {j i : Fin N} {q : Proc N} {pid : Int}
    (h : op.mayDo w j (.born q i pid)) : op = .fork i j ∧ q = w.procs i := by
  cases op with
  | act i' a =>
    obtain ⟨-, rfl, halone⟩ := h
    cases halone
  | fork i' c =>
    simp only [Op.mayDo, reduceCtorEq, and_false, Act.born.injEq, false_or] at h
    obtain ⟨rfl, rfl, rfl, -⟩ := h
    exact ⟨rfl, rfl⟩
  | send => cases h
  | sendNext k => simp [Op.mayDo] at h
  | leave i' => simp [Op.mayDo] at h
  | reap i' c => simp [Op.mayDo] at h
  | setpgid i' c pgid => simp [Op.mayDo] at h

end World

/-! ### Delivery -/

/-- The outcomes of `signal_deliver`. -/
inductive Delivery (p : Proc N) : Proc N → Prop where
  /-- nothing is delivered: no signal may be, or a handler runs and `SIGKILL` is not pending -/
  | none (h : p.sigHandling ∨ ∀ n, signalValid n → hasSignal p.deliverable n = false) :
      Delivery p p
  | terminate (signum : Int) (hvalid : signalValid signum)
      (hbusy : p.sigHandling → signum = SIGKILL) :
      Delivery p ((p.dropSignal signum).terminate signum)
  | ignore (signum : Int) (hvalid : signalValid signum) (hidle : p.sigHandling = false)
      (hpend : hasSignal p.sigPending signum) (hign : ignored (p.sigHandlers signum) signum) :
        Delivery p (p.dropSignal signum)
  /-- a handler is entered: none was running, and the signal was pending and not masked -/
  | handler (signum : Int) (hvalid : signalValid signum) (hkill : signum ≠ SIGKILL)
      (hidle : p.sigHandling = false) (hpend : hasSignal p.sigPending signum)
      (hmask : hasSignal p.sigMask signum = false) :
      Delivery p ((p.dropSignal signum).enterHandler signum (p.sigHandlers signum))

/-- `signal_deliver` has one of these outcomes. -/
theorem signalDeliver_spec (p : Proc N) : Delivery p p.signalDeliver := by
  rw [Proc.signalDeliver]
  split
  next hbusy =>
    rw [Bool.and_eq_true] at hbusy
    exact .none (.inl hbusy.1)
  next hfree =>
    dsimp only
    split
    next hzero =>
      refine .none (.inr fun n hn ↦ ?_)
      rw [← Bool.not_eq_true]
      intro hdel
      exact signalChoose_ne_zero hn hdel hzero
    next hne =>
      obtain hzero | ⟨hv, hdel, hfirst⟩ := signalChoose_spec p.deliverable
      · exact absurd hzero hne
      · have hpend := (hasSignal_deliverable hv).mp hdel
        -- only `SIGKILL` is delivered while a handler runs
        have hbusy : p.sigHandling → signalChoose p.deliverable = SIGKILL := by
          intro hbusy
          rw [hbusy, Bool.true_and, Bool.not_eq_true'] at hfree
          exact hfirst (by simpa using hfree)
        have hidle : signalChoose p.deliverable ≠ SIGKILL → p.sigHandling = false := by
          intro hne
          rw [← Bool.not_eq_true]
          exact fun h ↦ hne (hbusy h)
        rw [Proc.deliverSignal]
        split
        next => exact .terminate _ hv hbusy
        next hcaught =>
          rw [not_or] at hcaught
          split
          next hign => exact .ignore _ hv (hidle hcaught.1) hpend.1 hign
          next =>
            split
            next => exact .terminate _ hv hbusy
            next =>
              exact .handler _ hv hcaught.1 (hidle hcaught.1) hpend.1
                (hpend.2.resolve_right hcaught.1)

/-! ### Ignored signals are not pending -/

/-- The dispositions and the pending signals agree: `SIGKILL` has its default disposition, and no
ignored signal is pending. -/
structure Signals.Proper (s : Signals) : Prop where
  kill : s.sigHandlers SIGKILL = SIG_DFL
  pending : ∀ n, signalValid n → ignored (s.sigHandlers n) n → hasSignal s.sigPending n = false

/-- Without pending signals only the disposition of `SIGKILL` matters. -/
theorem Signals.proper_of_none {s : Signals} (hkill : s.sigHandlers SIGKILL = SIG_DFL)
    (hnone : s.sigPending = 0) : s.Proper where
  kill := hkill
  pending := fun n _ _ ↦ by rw [hnone, hasSignal_zero]

/-- Fewer pending signals, the same dispositions. -/
theorem Signals.Proper.mono {s t : Signals} (hs : s.Proper) (hh : t.sigHandlers = s.sigHandlers)
    (hp : ∀ n, signalValid n → hasSignal t.sigPending n → hasSignal s.sigPending n) :
    t.Proper where
  kill := by rw [hh, hs.kill]
  pending := by
    intro n hn hign
    rw [hh] at hign
    rw [← Bool.not_eq_true]
    intro hpend
    have hnone := hs.pending n hn hign
    rw [hp n hn hpend] at hnone
    cases hnone

/-- `signal()` drops a pending signal when it starts to ignore it. -/
theorem proper_setHandler {p : Proc N} {signum : Int} {handler : Word} (h : p.Proper) :
    (p.signalSetHandler signum handler).1.Proper := by
  rw [Proc.signalSetHandler]
  split
  next => exact h
  next hvalid =>
    split
    next => exact h
    next hkill =>
      split
      next => exact h
      next =>
        have hv : signalValid signum := by simpa using hvalid
        constructor
        · dsimp only
          rw [update_of_ne (fun heq ↦ hkill heq.symm)]
          exact h.kill
        · intro n hn hign
          dsimp only at hign ⊢
          by_cases heq : signum = n
          · subst heq
            rw [update_self] at hign
            rw [if_pos hign, hasSignal_andNot hv hn]
            simp
          · rw [update_of_ne (fun h ↦ heq h.symm)] at hign
            have hnone := h.pending n hn hign
            split
            next => rw [hasSignal_andNot hv hn, hnone, Bool.false_and]
            next => exact hnone

/-- A signal is marked only when it is not ignored. -/
theorem proper_mark {p : Proc N} {signum : Int} (hv : signalValid signum) (h : p.Proper) :
    (p.signalMarkLocked signum).Proper := by
  rw [Proc.signalMarkLocked]
  split
  next => exact h
  next hign =>
    constructor
    · exact h.kill
    · intro n hn hig
      dsimp only at hig ⊢
      rw [hasSignal_or hv hn, h.pending n hn hig, Bool.false_or, decide_eq_false_iff_not]
      rintro rfl
      exact hign hig

/-- `exec` forgets every pending signal and keeps `SIGKILL` at its default. -/
theorem proper_resetOnExec {p : Proc N} (h : p.Proper) : p.signalResetOnExec.Proper := by
  refine Signals.proper_of_none ?_ rfl
  rw [Proc.signalResetOnExec]
  dsimp only
  split
  next => rfl
  next => exact h.kill

/-- `signal_deliver` marks no signal. -/
theorem Delivery.proper {p q : Proc N} (hd : Delivery p q) (h : p.Proper) : q.Proper := by
  have hdrop : ∀ signum, signalValid signum → ∀ n, signalValid n →
      hasSignal (p.dropSignal signum).sigPending n → hasSignal p.sigPending n := by
    intro signum hv n hn hpend
    rw [Proc.dropSignal, hasSignal_andNot hv hn, Bool.and_eq_true] at hpend
    exact hpend.1
  cases hd with
  | none => exact h
  | terminate signum hv _ => exact h.mono rfl (hdrop signum hv)
  | ignore signum hv _ _ _ => exact h.mono rfl (hdrop signum hv)
  | handler signum hv _ _ _ _ => exact h.mono rfl (hdrop signum hv)

/-- Every act keeps the dispositions and the pending signals in agreement. -/
theorem proper_effect {p : Proc N} {a : Act N} (hready : a.ready p) (h : p.Proper)
    (hborn : ∀ q i pid, a = .born q i pid → q.Proper) : (a.effect p).Proper := by
  rw [Act.effect_signals]
  cases a with
  | signal signum handler => exact proper_setHandler h
  | sigreturn =>
    apply h.mono
    · rw [Act.signals, Proc.signalSigreturn]
      split <;> rfl
    · intro n _ hpend
      rw [Act.signals, Proc.signalSigreturn] at hpend
      split at hpend <;> exact hpend
  | execReset => exact proper_resetOnExec h
  | deliver => exact (signalDeliver_spec p).proper h
  | mark signum =>
    rw [Act.ready, Bool.and_eq_true] at hready
    exact proper_mark hready.2 h
  | born parent i pid => exact Signals.proper_of_none (hborn parent i pid rfl).kill rfl
  | free => exact Signals.proper_of_none rfl rfl
  | _ => exact h

namespace World

/-- Every step keeps the dispositions and the pending signals in agreement. -/
theorem Step.proper {w w' : World N} {op : Op N} (h : Step w op w')
    (hw : ∀ j, (w.procs j).Proper) (j : Fin N) : (w'.procs j).Proper := by
  apply Step.invariant h (fun p ↦ p.Proper) ?_ (hw j)
  intro p a hmay hready hp
  apply proper_effect hready hp
  rintro q i pid rfl
  obtain ⟨-, rfl⟩ := mayDo_born hmay
  exact hw i

/-- After the boot nothing is pending. -/
theorem boot_proper (walk : Word → Option Word) (sp : Word) (j : Fin (N + 1)) :
    ((boot N walk sp).procs j).Proper := by
  rw [boot]
  dsimp only
  by_cases hj : j = 0
  · subst hj
    rw [update_self]
    exact Signals.proper_of_none rfl rfl
  · rw [update_of_ne hj]
    exact Signals.proper_of_none rfl rfl

/-- The dispositions and the pending signals agree after every run. -/
theorem runs_proper {walk : Word → Option Word} {sp : Word} {ops : List (Op (N + 1))}
    {w : World (N + 1)} (h : Runs Step (boot N walk sp) ops w) (j : Fin (N + 1)) :
    (w.procs j).Proper :=
  h.invariant (fun w ↦ ∀ j, (w.procs j).Proper) (fun _ _ _ hw hs ↦ hs.proper hw)
    (boot_proper walk sp) j

/-- In every state that any interleaving of `signal()`, sends, exits, deliveries, `fork` and `exec`
reaches, a live process has the default disposition for `SIGKILL`, and none of its pending signals
is one that it ignores, by `SIG_IGN` or by the default of `SIGCHLD`. -/
theorem ignored_not_pending {walk : Word → Option Word} {sp : Word} {ops : List (Op (N + 1))}
    {w : World (N + 1)} (h : Runs Step (boot N walk sp) ops w) (j : Fin (N + 1))
    (_hlive : (w.procs j).state ≠ .unused) :
    (w.procs j).sigHandlers SIGKILL = SIG_DFL ∧
      ∀ n, signalValid n →
        ((w.procs j).sigHandlers n = SIG_IGN ∨
          ((w.procs j).sigHandlers n = SIG_DFL ∧ n = SIGCHLD)) →
        hasSignal (w.procs j).sigPending n = false := by
  have hproper := runs_proper h j
  refine ⟨hproper.kill, fun n hn hign ↦ hproper.pending n hn ?_⟩
  simpa [ignored, signalDefaultIgnored] using hign

/-- The first page is code that user mode may execute. -/
def codePage (va : Word) : Option Word := if va < 0x1000 then some 0x1b else none

/-- What a running process does when its system call has returned `a0`, up to user mode and into
its next system call. -/
def backAndForth (i : Fin N) : List (Op N) :=
  [.act i .store, .act i .deliver, .act i .check, .act i (.resume 0 0 0 0), .act i (.trap .ecall)]

/-- The first process catches signal 2 and ignores signal 15, sends itself both, handles the one
that it catches, and is back from the handler in its next system call. -/
def caughtAndIgnored : List (Op 64) :=
  [Op.act 0 .schedule, .act 0 (.resume 0 0 0 0), .act 0 (.trap .ecall), .act 0 (.signal 2 8)] ++
    backAndForth 0 ++ [Op.act 0 (.signal 15 SIG_IGN)] ++ backAndForth 0 ++
    [Op.send (.pid 1) 15, .sendNext 0, .send (.pid 1) 2, .sendNext 0, .act 0 (.result 0)] ++
    backAndForth 0 ++ [Op.act 0 .sigreturn] ++ backAndForth 0

/-- It forks, the child makes an `exec` and exits, which sends `SIGCHLD`; both signals are sent
again. -/
def childExits : List (Op 64) :=
  [.fork 0 1, .act 1 .schedule, .act 1 (.resume 0 0 0 0), .act 1 (.trap .ecall),
    .act 1 (.execFrame 0 MAXUVA), .act 1 .execReset, .act 1 (.exit 0), .act 1 .grab, .leave 1,
    .send (.pid 1) 15, .sendNext 0, .send (.pgrp 1) 2, .sendNext 0]

/-- The signal that is caught is pending then, and neither the one that is ignored nor `SIGCHLD`. -/
theorem ignored_not_pending_small :
    ∃ w, Runs Step (boot 63 codePage MAXUVA) (caughtAndIgnored ++ childExits) w ∧
      hasSignal (w.procs 0).sigPending 2 ∧ (w.procs 1).state = .zombie ∧
      (w.procs 0).sigHandlers SIGKILL = SIG_DFL ∧ (w.procs 1).sigHandlers SIGKILL = SIG_DFL ∧
      hasSignal (w.procs 0).sigPending 15 = false ∧
      hasSignal (w.procs 0).sigPending SIGCHLD = false := by
  obtain ⟨w, hrun, hcheck⟩ := exists_run (boot 63 codePage MAXUVA) (caughtAndIgnored ++ childExits)
    (fun w ↦ hasSignal (w.procs 0).sigPending 2 ∧ (w.procs 0).state = .running ∧
      (w.procs 1).state = .zombie ∧ (w.procs 0).sigHandlers 15 = SIG_IGN ∧
      (w.procs 0).sigHandlers SIGCHLD = SIG_DFL) (by decide +kernel)
  obtain ⟨hpending, hlive, hzombie, hignored, hdefault⟩ := of_decide_eq_true hcheck
  have hparent := ignored_not_pending hrun 0 (by rw [hlive]; decide)
  have hchild := ignored_not_pending hrun 1 (by rw [hzombie]; decide)
  exact ⟨w, hrun, hpending, hzombie, hparent.1, hchild.1,
    hparent.2 15 (by decide) (.inl hignored), hparent.2 SIGCHLD (by decide) (.inr ⟨hdefault, rfl⟩)⟩

end World

/-! ### The mask -/

/-- The mask blocks the signal that is being handled, and nothing else. -/
structure Signals.Masked (s : Signals) : Prop where
  mask : s.sigMask = if s.sigHandling then signalBit s.sigCurrent else 0
  current : s.sigHandling → signalValid s.sigCurrent

/-- No handler runs and nothing is masked. -/
theorem Signals.masked_of_idle {s : Signals} (hm : s.sigMask = 0) (hidle : s.sigHandling = false) :
    s.Masked where
  mask := by rw [hm, hidle]; rfl
  current := fun h ↦ by rw [hidle] at h; cases h

/-- Only the pending signals and the dispositions differ. -/
theorem Signals.Masked.congr {s t : Signals} (h : s.Masked) (hm : t.sigMask = s.sigMask)
    (hh : t.sigHandling = s.sigHandling) (hc : t.sigCurrent = s.sigCurrent) : t.Masked where
  mask := by rw [hm, hh, hc, h.mask]
  current := by rw [hh, hc]; exact h.current

/-- `sigreturn` leaves nothing masked. -/
theorem Signals.Masked.sigreturn {p : Proc N} (h : p.Masked) :
    p.signalSigreturn.1.sigMask = 0 ∧ p.signalSigreturn.1.sigHandling = false := by
  rw [Proc.signalSigreturn]
  split
  next hidle =>
    rw [Bool.not_eq_true'] at hidle
    refine ⟨?_, hidle⟩
    rw [h.mask, if_neg (by simp [hidle])]
  next hbusy =>
    have hbusy : p.sigHandling := by simpa using hbusy
    have hmask : p.sigMask = 0 ||| signalBit p.sigCurrent := by
      rw [h.mask, if_pos hbusy]
      exact BitVec.zero_or.symm
    refine ⟨?_, rfl⟩
    dsimp only
    rw [if_pos (h.current hbusy), hmask]
    exact or_andNot (toNat_lt (h.current hbusy)) (hasBit_zero _)

/-- A handler that is entered masks its own signal. -/
theorem Delivery.masked {p q : Proc N} (hd : Delivery p q) (h : p.Masked) : q.Masked := by
  cases hd with
  | none => exact h
  | terminate signum _ _ => exact h.congr rfl rfl rfl
  | ignore signum _ _ _ _ => exact h.congr rfl rfl rfl
  | handler signum hv _ hidle _ _ =>
    constructor
    · change p.sigMask ||| signalBit signum = signalBit signum
      rw [h.mask, if_neg (by simp [hidle])]
      exact BitVec.zero_or
    · intro _
      exact hv

/-- Every act keeps the mask in order; a child needs a parent that runs no handler. -/
theorem masked_effect {p : Proc N} {a : Act N} (h : p.Masked)
    (hborn : ∀ q i pid, a = .born q i pid → q.Masked ∧ q.sigHandling = false) :
    (a.effect p).Masked := by
  rw [Act.effect_signals]
  cases a with
  | signal signum handler =>
    rw [Act.signals, Proc.signalSetHandler]
    split
    next => exact h
    next =>
      split
      next => exact h
      next => split <;> exact h.congr rfl rfl rfl
  | sigreturn => exact Signals.masked_of_idle h.sigreturn.1 h.sigreturn.2
  | execReset => exact Signals.masked_of_idle rfl rfl
  | deliver => exact (signalDeliver_spec p).masked h
  | mark signum =>
    rw [Act.signals, Proc.signalMarkLocked]
    split <;> exact h.congr rfl rfl rfl
  | born parent i pid =>
    obtain ⟨hq, hidle⟩ := hborn parent i pid rfl
    refine Signals.masked_of_idle ?_ rfl
    change parent.sigMask = 0
    rw [hq.mask, if_neg (by simp [hidle])]
  | free => exact Signals.masked_of_idle rfl rfl
  | _ => exact h

namespace World

/-- The step is not a `fork` by a process that runs a signal handler. -/
def OutsideHandler (w : World N) : Op N → Prop
  | .fork i _ => (w.procs i).sigHandling = false
  | _ => True

/-- A step that is not a `fork` from a handler keeps every mask in order. -/
theorem Step.masked {w w' : World N} {op : Op N} (h : Step w op w') (hfork : w.OutsideHandler op)
    (hw : ∀ j, (w.procs j).Masked) (j : Fin N) : (w'.procs j).Masked := by
  apply Step.invariant h (fun p ↦ p.Masked) ?_ (hw j)
  intro p a hmay _ hp
  apply masked_effect hp
  rintro q i pid rfl
  obtain ⟨rfl, rfl⟩ := mayDo_born hmay
  exact ⟨hw i, hfork⟩

/-- After the boot nothing is masked. -/
theorem boot_masked (walk : Word → Option Word) (sp : Word) (j : Fin (N + 1)) :
    ((boot N walk sp).procs j).Masked := by
  rw [boot]
  dsimp only
  by_cases hj : j = 0
  · subst hj
    rw [update_self]
    exact Signals.masked_of_idle rfl rfl
  · rw [update_of_ne hj]
    exact Signals.masked_of_idle rfl rfl

/-- In every run in which no process forks from inside a handler, the mask of every live process
is the bit of the signal that it handles, or empty when it handles none, and `sigreturn` leaves no
signal blocked. -/
theorem mask_eq_current {walk : Word → Option Word} {sp : Word} {ops : List (Op (N + 1))}
    {w : World (N + 1)}
    (h : Runs (fun w op w' ↦ w.OutsideHandler op ∧ Step w op w') (boot N walk sp) ops w)
    (j : Fin (N + 1)) (_hlive : (w.procs j).state ≠ .unused) :
    ((w.procs j).sigMask =
        if (w.procs j).sigHandling then signalBit (w.procs j).sigCurrent else 0) ∧
      (w.procs j).signalSigreturn.1.sigMask = 0 := by
  have hmasked : ∀ j, (w.procs j).Masked :=
    h.invariant (fun w ↦ ∀ j, (w.procs j).Masked) (fun _ _ _ hw hs ↦ hs.2.masked hs.1 hw)
      (boot_masked walk sp)
  exact ⟨(hmasked j).mask, (hmasked j).sigreturn.1⟩

/-- The first process installs a handler for signal 2, sends itself the signal, and forks in the
handler; the child starts. -/
def forkInHandler : List (Op 64) :=
  [Op.act 0 .schedule, .act 0 (.resume 0 0 0 0), .act 0 (.trap .ecall), .act 0 (.signal 2 8)] ++
    backAndForth 0 ++ [Op.send (.pid 1) 2, .sendNext 0, .act 0 (.result 0)] ++
    backAndForth 0 ++ [Op.fork 0 1, .act 1 .schedule, .act 1 (.resume 0 0 0 0)]

/-- A child that is forked inside a handler handles no signal, blocks the parent's signal, and its
`sigreturn` is refused. -/
theorem mask_of_fork_in_handler : ∃ w, Runs Step (boot 63 codePage MAXUVA) forkInHandler w ∧
    (w.procs 1).state ≠ .unused ∧ (w.procs 1).sigHandling = false ∧
    (w.procs 1).sigMask = signalBit 2 ∧
    (w.procs 1).sigMask ≠
      (if (w.procs 1).sigHandling then signalBit (w.procs 1).sigCurrent else 0) ∧
    (w.procs 1).signalSigreturn.2 = -1 ∧ (w.procs 1).signalSigreturn.1.sigMask = signalBit 2 := by
  obtain ⟨w, hrun, hcheck⟩ := exists_run (boot 63 codePage MAXUVA) forkInHandler
    (fun w ↦ (w.procs 1).state ≠ .unused ∧ (w.procs 1).sigHandling = false ∧
      (w.procs 1).sigMask = signalBit 2 ∧
      (w.procs 1).sigMask ≠
        (if (w.procs 1).sigHandling then signalBit (w.procs 1).sigCurrent else 0) ∧
      (w.procs 1).signalSigreturn.2 = -1 ∧ (w.procs 1).signalSigreturn.1.sigMask = signalBit 2)
    (by decide +kernel)
  exact ⟨w, hrun, by simpa using hcheck⟩

/-- Whether a step is a `fork` from a handler is seen from the step and the state before. -/
instance decidableOutsideHandler (w : World N) : (op : Op N) → Decidable (w.OutsideHandler op)
  | .fork i _ => inferInstanceAs (Decidable ((w.procs i).sigHandling = false))
  | .act _ _ | .send _ _ | .sendNext _ | .leave _ | .reap _ _ | .setpgid _ _ _ => .isTrue trivial

/-- Back from the handler the first process forks and signals the child, which enters the
handler. -/
def forkAfterHandler : List (Op 64) :=
  [Op.fork 0 1, .act 1 .schedule, .act 1 (.resume 0 0 0 0), .act 1 (.trap .ecall),
    .send (.pid 2) 2, .sendNext 0, .sendNext 0, .act 1 (.result 0)] ++ backAndForth 1

/-- The child is in the handler and masks its signal until it returns; the parent masks none. -/
theorem mask_eq_current_small :
    ∃ w, Runs (fun w op w' ↦ OutsideHandler w op ∧ Step w op w')
        (boot 63 codePage MAXUVA) (caughtAndIgnored ++ forkAfterHandler) w ∧
      (w.procs 1).sigMask = signalBit 2 ∧ (w.procs 1).signalSigreturn.1.sigMask = 0 ∧
      (w.procs 0).sigMask = 0 := by
  have hstep : ∀ (w : World 64) op w',
      (if w.OutsideHandler op then w.after op else none) = some w' →
        w.OutsideHandler op ∧ Step w op w' := fun w op w' h ↦ Option.ite_none_right_eq_some.mp h
  obtain ⟨w, hrun, hcheck⟩ := exists_runs hstep
    (boot 63 codePage MAXUVA) (caughtAndIgnored ++ forkAfterHandler)
    (fun w ↦ (w.procs 1).state = .running ∧ (w.procs 1).sigHandling = true ∧
      (w.procs 1).sigCurrent = 2 ∧ (w.procs 0).state = .running ∧
      (w.procs 0).sigHandling = false) (by decide +kernel)
  obtain ⟨hlive, hhandling, hcurrent, hparent, hidle⟩ := of_decide_eq_true hcheck
  have hchild := mask_eq_current hrun 1 (by rw [hlive]; decide)
  rw [hhandling, if_pos rfl, hcurrent] at hchild
  have hmask := (mask_eq_current hrun 0 (by rw [hparent]; decide)).1
  rw [hidle, if_neg (by decide)] at hmask
  exact ⟨w, hrun, hchild.1, hchild.2, hmask⟩

end World

end Xv6K210.Signal
