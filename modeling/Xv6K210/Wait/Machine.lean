import Mathlib.Data.List.FinRange
import Xv6K210.Base.Runs

/-!
# Fork, exit and wait

Source `kernel/proc/proc.c:96–238,555–624,669–820`. Every process slot has a
lock. A step of a process is what it does from one acquire to the next: it takes the lock it
needs, which must be free, and gives back those it releases. The reads of `parent` that are
made without the lock of the child are steps of their own. `sleep_interruptible` may return at
any time, with success or with failure.
-/

namespace Xv6K210.Wait

open Function

variable {n : Nat}

/-- `enum procstate`; the states between `UNUSED` and `ZOMBIE` are one here. -/
inductive ProcState where
  | unused
  | live
  | zombie
  deriving DecidableEq, Repr

/-- `struct proc`. `vm` tells that the trap frame and the page tables are there. -/
structure Proc (n : Nat) where
  state : ProcState
  pid : UInt32
  parent : Option (Fin n)
  xstate : Int
  vm : Bool
  deriving DecidableEq, Repr

/-- What `freeproc` leaves. -/
def Proc.free : Proc n := ⟨.unused, 0, none, 0, false⟩

/-- Where a process is in these calls. A list of slots is what a loop has still before it. -/
inductive Pc (n : Nat) where
  /-- no process, or a zombie that has left the CPU -/
  | gone
  /-- anywhere else -/
  | user
  /-- the loop of `allocproc` -/
  | forkScan (rest : List (Fin n))
  /-- `fork` with the lock of the child, whose parent is not set -/
  | forkHold (k : Fin n)
  /-- `fork` after `np->parent = p` -/
  | forkSet (k : Fin n)
  /-- `exit`, before it reads its parent -/
  | exitRead (status : Int)
  /-- `exit` with a copy of its parent -/
  | exitParent (status : Int) (q : Fin n)
  /-- `exit` with the lock of the copy -/
  | exitSelf (status : Int) (q : Fin n)
  /-- the loop of `reparent`, with both locks -/
  | exitScan (status : Int) (q : Fin n) (rest : List (Fin n))
  /-- `reparent` has seen a child -/
  | exitAdopt (status : Int) (q : Fin n) (k : Fin n) (rest : List (Fin n))
  /-- a zombie on the way to the scheduler -/
  | exitSched
  /-- `wait`, before it has its own lock -/
  | waitLock
  /-- the loop of `wait` -/
  | waitScan (havekids : Bool) (rest : List (Fin n))
  /-- `wait` has seen a child -/
  | waitChild (k : Fin n) (rest : List (Fin n))
  /-- `sleep_interruptible` in `wait` -/
  | waitSleep
  deriving DecidableEq, Repr

/-- The locks that a process holds. -/
def Pc.holds (p : Fin n) : Pc n → List (Fin n)
  | forkHold k | forkSet k => [k]
  | exitSelf _ q => [q]
  | exitScan _ q _ | exitAdopt _ q _ _ => [q, p]
  | exitSched => [p]
  | waitScan _ _ | waitChild _ _ => [p]
  | _ => []

/-- Why `wait` returned -1. -/
inductive Failure where
  | copyout
  | noChildren
  | interrupted
  deriving DecidableEq, Repr

/-- What happens. `born` is the end of a successful `fork`, `died` turns a process into a
zombie, and `reap` is a `wait` that returns a pid and delivers a status. -/
inductive Act (n : Nat) where
  | quiet (p : Fin n)
  | born (p k : Fin n) (pid : UInt32)
  | forkFailed (p : Fin n)
  | died (p : Fin n) (pid : UInt32) (status : Int)
  | adopt (p k : Fin n)
  | reap (p k : Fin n) (pid : UInt32) (status : Int)
  | waitFailed (p : Fin n) (why : Failure)
  deriving DecidableEq, Repr

/-- The table of processes, their locks with who holds them, what each process is doing, and
`nextpid`. -/
structure State (n : Nat) where
  proc : Fin n → Proc n
  lock : Fin n → Option (Fin n)
  pc : Fin n → Pc n
  nextpid : UInt32

namespace State

variable (s : State n)

/-- The process goes on. -/
def goto (p : Fin n) (pc : Pc n) : State n := { s with pc := update s.pc p pc }

/-- `acquire`, of a lock that is free, and `release`. -/
def setLock (k : Fin n) (x : Option (Fin n)) : State n :=
  { s with lock := update s.lock k x }

/-- The slot is written. -/
def setProc (k : Fin n) (x : Proc n) : State n :=
  { s with proc := update s.proc k x }

/-- All slots, in the order of the loops. -/
def slots : List (Fin n) := List.finRange n

/-- One step; `init` is `initproc`. -/
inductive Step (init : Fin n) : State n → Act n → State n → Prop where
  /-- `fork` begins -/
  | fork {s : State n} {p : Fin n} (h : s.pc p = .user) :
      Step init s (.quiet p) (s.goto p (.forkScan slots))
  | forkNext {s : State n} {p k : Fin n} {rest : List (Fin n)} (h : s.pc p = .forkScan (k :: rest))
      (hlock : s.lock k = none) (hused : (s.proc k).state ≠ .unused) :
      Step init s (.quiet p) (s.goto p (.forkScan rest))
  | forkFull {s : State n} {p : Fin n} (h : s.pc p = .forkScan []) :
      Step init s (.forkFailed p) (s.goto p .user)
  /-- `allocproc` finds a slot and returns with its lock -/
  | forkFound {s : State n} {p k : Fin n} {rest : List (Fin n)}
      (h : s.pc p = .forkScan (k :: rest)) (hlock : s.lock k = none)
      (hunused : (s.proc k).state = .unused) :
      Step init s (.quiet p)
        (State.goto { (s.setLock k (some p)).setProc k
            { s.proc k with pid := s.nextpid, vm := true } with
          nextpid := s.nextpid + 1 } p (.forkHold k))
  /-- there is no page for the trap frame: `allocproc` does not call `freeproc` -/
  | forkNoFrame {s : State n} {p k : Fin n} {rest : List (Fin n)}
      (h : s.pc p = .forkScan (k :: rest)) (hlock : s.lock k = none)
      (hunused : (s.proc k).state = .unused) :
      Step init s (.forkFailed p)
        (State.goto { s.setProc k { s.proc k with pid := s.nextpid } with
          nextpid := s.nextpid + 1 } p .user)
  /-- any later failure of `allocproc` or `fork` -/
  | forkBad {s : State n} {p k : Fin n} (h : s.pc p = .forkHold k) :
      Step init s (.forkFailed p) (((s.setProc k .free).setLock k none).goto p .user)
  | forkParent {s : State n} {p k : Fin n} (h : s.pc p = .forkHold k) :
      Step init s (.quiet p)
        ((s.setProc k { s.proc k with parent := some p }).goto p (.forkSet k))
  | forkDone {s : State n} {p k : Fin n} (h : s.pc p = .forkSet k) :
      Step init s (.born p k (s.proc k).pid)
        ((((s.setProc k { s.proc k with state := .live }).setLock k none).goto k .user).goto p
          .user)
  /-- `exit` begins; `initproc` panics -/
  | exit {s : State n} {p : Fin n} (status : Int) (h : s.pc p = .user) (hinit : p ≠ init) :
      Step init s (.quiet p) (s.goto p (.exitRead status))
  | exitRead {s : State n} {p q : Fin n} {status : Int} (h : s.pc p = .exitRead status)
      (hlock : s.lock p = none) (hparent : (s.proc p).parent = some q) :
      Step init s (.quiet p) (s.goto p (.exitParent status q))
  | exitParent {s : State n} {p q : Fin n} {status : Int} (h : s.pc p = .exitParent status q)
      (hlock : s.lock q = none) :
      Step init s (.quiet p) ((s.setLock q (some p)).goto p (.exitSelf status q))
  | exitSelf {s : State n} {p q : Fin n} {status : Int} (h : s.pc p = .exitSelf status q)
      (hlock : s.lock p = none) :
      Step init s (.quiet p) ((s.setLock p (some p)).goto p (.exitScan status q slots))
  | reparentNext {s : State n} {p q k : Fin n} {status : Int} {rest : List (Fin n)}
      (h : s.pc p = .exitScan status q (k :: rest)) (hparent : (s.proc k).parent ≠ some p) :
      Step init s (.quiet p) (s.goto p (.exitScan status q rest))
  | reparentSee {s : State n} {p q k : Fin n} {status : Int} {rest : List (Fin n)}
      (h : s.pc p = .exitScan status q (k :: rest)) (hparent : (s.proc k).parent = some p) :
      Step init s (.quiet p) (s.goto p (.exitAdopt status q k rest))
  | reparent {s : State n} {p q k : Fin n} {status : Int} {rest : List (Fin n)}
      (h : s.pc p = .exitAdopt status q k rest) (hlock : s.lock k = none) :
      Step init s (.adopt p k)
        ((s.setProc k { s.proc k with parent := some init }).goto p (.exitScan status q rest))
  /-- the lock of the parent is released, the own lock is kept until the switch -/
  | exitDone {s : State n} {p q : Fin n} {status : Int} (h : s.pc p = .exitScan status q []) :
      Step init s (.died p (s.proc p).pid status)
        (((s.setProc p { s.proc p with xstate := status, state := .zombie }).setLock q none).goto p
          .exitSched)
  | exitSched {s : State n} {p : Fin n} (h : s.pc p = .exitSched) :
      Step init s (.quiet p) ((s.setLock p none).goto p .gone)
  /-- `wait` begins -/
  | wait {s : State n} {p : Fin n} (h : s.pc p = .user) :
      Step init s (.quiet p) (s.goto p .waitLock)
  | waitLock {s : State n} {p : Fin n} (h : s.pc p = .waitLock) (hlock : s.lock p = none) :
      Step init s (.quiet p) ((s.setLock p (some p)).goto p (.waitScan false slots))
  | waitNext {s : State n} {p k : Fin n} {havekids : Bool} {rest : List (Fin n)}
      (h : s.pc p = .waitScan havekids (k :: rest)) (hparent : (s.proc k).parent ≠ some p) :
      Step init s (.quiet p) (s.goto p (.waitScan havekids rest))
  | waitSee {s : State n} {p k : Fin n} {havekids : Bool} {rest : List (Fin n)}
      (h : s.pc p = .waitScan havekids (k :: rest)) (hparent : (s.proc k).parent = some p) :
      Step init s (.quiet p) (s.goto p (.waitChild k rest))
  | waitLive {s : State n} {p k : Fin n} {rest : List (Fin n)} (h : s.pc p = .waitChild k rest)
      (hlock : s.lock k = none) (hzombie : (s.proc k).state ≠ .zombie) :
      Step init s (.quiet p) (s.goto p (.waitScan true rest))
  /-- `freeprocvm` ran, and the status address is bad -/
  | waitBad {s : State n} {p k : Fin n} {rest : List (Fin n)} (h : s.pc p = .waitChild k rest)
      (hlock : s.lock k = none) (hzombie : (s.proc k).state = .zombie) :
      Step init s (.waitFailed p .copyout)
        (((s.setProc k { s.proc k with vm := false }).setLock p none).goto p .user)
  | reap {s : State n} {p k : Fin n} {rest : List (Fin n)} (h : s.pc p = .waitChild k rest)
      (hlock : s.lock k = none) (hzombie : (s.proc k).state = .zombie) :
      Step init s (.reap p k (s.proc k).pid (s.proc k).xstate)
        (((s.setProc k .free).setLock p none).goto p .user)
  | waitNoChildren {s : State n} {p : Fin n} (h : s.pc p = .waitScan false []) :
      Step init s (.waitFailed p .noChildren) ((s.setLock p none).goto p .user)
  | waitSleep {s : State n} {p : Fin n} (h : s.pc p = .waitScan true []) :
      Step init s (.quiet p) ((s.setLock p none).goto p .waitSleep)
  | waitWoken {s : State n} {p : Fin n} (h : s.pc p = .waitSleep) (hlock : s.lock p = none) :
      Step init s (.quiet p) ((s.setLock p (some p)).goto p (.waitScan false slots))
  | waitInterrupted {s : State n} {p : Fin n} (h : s.pc p = .waitSleep)
      (hlock : s.lock p = none) :
      Step init s (.waitFailed p .interrupted) (s.goto p .user)

/-- The state after `userinit`. -/
def start (init : Fin n) : State n where
  proc := update (fun _ ↦ .free) init ⟨.live, 1, none, 0, true⟩
  lock := fun _ ↦ none
  pc := update (fun _ ↦ .gone) init .user
  nextpid := 2

end State

end Xv6K210.Wait
