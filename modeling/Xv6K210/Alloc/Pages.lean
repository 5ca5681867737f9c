import Xv6K210.Base.Listed
import Xv6K210.Base.RefCount
import Xv6K210.Base.Runs

/-!
# The page allocator of several CPUs

`src/kernel/vm/kalloc.c`: a list of free pages for each CPU, threaded through the first
words of the pages, and a quota for each page under a lock of its own. A region under one
lock is one step; between its regions a call of any thread may be overtaken by the others.
A page is named by its number, and zero is the null pointer.
-/

namespace Xv6K210.Alloc

open Base Function

/-- The managed pages: from the first page after the kernel to `PHYSTOP`. -/
structure Zone where
  first : Nat
  last : Nat
  pos : 0 < first

/-- The test that `kaddquota` and `kfree_page_to` make of their argument. -/
def Zone.manages (z : Zone) (p : Nat) : Prop := z.first ≤ p ∧ p < z.last

instance (z : Zone) (p : Nat) : Decidable (z.manages p) :=
  inferInstanceAs (Decidable (_ ∧ _))

variable {n : Nat} {T : Type} [DecidableEq T]

/-- `kmem` and `cow_map`: the heads of the free lists, the first words of the pages, and the
quotas, which are of type `char`. -/
structure Kmem (n : Nat) where
  head : Fin n → Nat
  next : Nat → Nat
  quota : Nat → UInt8

namespace Kmem

variable (k : Kmem n)

/-- The region of `kfree_page_to` under the quota lock. -/
def decQuota (p : Nat) : Kmem n := { k with quota := update k.quota p (k.quota p - 1) }

/-- The region of `kaddquota`. -/
def incQuota (p : Nat) : Kmem n := { k with quota := update k.quota p (k.quota p + 1) }

/-- The last region of `kalloc_page`. -/
def oneQuota (p : Nat) : Kmem n := { k with quota := update k.quota p 1 }

/-- The region of `kfree_page_to` under the lock of a list. -/
def push (id : Fin n) (p : Nat) : Kmem n :=
  { k with next := update k.next p (k.head id), head := update k.head id p }

/-- The region of `kalloc_page` that takes the page `r` off a list. -/
def pop (id : Fin n) : Kmem n :=
  { k with head := update k.head id (k.next (k.head id)) }

/-- A write to the first word of a page. -/
def store (p v : Nat) : Kmem n := { k with next := update k.next p v }

/-- `kfree_page_to` without interruption, as at boot. -/
def freeTo (id : Fin n) (p : Nat) : Kmem n :=
  let k := k.decQuota p
  if k.quota p = 0 then k.push id p else k

/-- The loop of `freerange`: `left` pages from `p` on, the first of them for CPU `id`. -/
def freerange [NeZero n] : Nat → Nat → Fin n → Kmem n → Kmem n
  | 0, _, _, k => k
  | left + 1, p, id, k => freerange left (p + 1) (id + 1) ((k.oneQuota p).freeTo id p)

/-- `kinit`. -/
def kinit [NeZero n] (z : Zone) : Kmem n :=
  freerange (z.last - z.first) z.first 0 ⟨fun _ ↦ 0, fun _ ↦ 0, fun _ ↦ 0⟩

end Kmem

/-- How far a call of a thread has come. `look seen rest` is in the loop of `kalloc_page`: it
found the lists in `seen` empty and has those in `rest` before it. `got` has a page whose
quota is not yet set, `drop` gives up a reference, and `put` has a page that is not yet on a
list. -/
inductive Pc (n : Nat) where
  | idle
  | look (seen rest : List (Fin n))
  | got (p : Nat)
  | drop (id : Fin n) (p : Nat)
  | put (id : Fin n) (p : Nat)
  | panicked
  deriving DecidableEq

/-- The page that a call is about to give up. -/
def Pc.dropping : Pc n → Option Nat
  | drop _ p => some p
  | _ => none

/-- The page that a call has in its hands. -/
def Pc.carrying : Pc n → Option Nat
  | got p => some p
  | put _ p => some p
  | _ => none

/-- The memory, the calls under way, and how many references to each page have been handed
out and are not being given up. -/
structure State (n : Nat) (T : Type) where
  mem : Kmem n
  pc : T → Pc n
  owned : Nat → Nat

/-- What happens. A label tells the page that a step is about: `hand` returns it from
`kalloc_page`, `fail` returns 0, `unref` is the region of `kfree_page_to` under the quota
lock and tells whether the reference was the last one. -/
inductive Act (n : Nat) (T : Type) where
  | kalloc (t : T) (id : Fin n)
  | inspect (t : T)
  | hand (t : T) (p : Nat)
  | fail (t : T)
  | kfree (t : T) (id : Fin n) (p : Nat)
  | unref (t : T) (p : Nat) (last : Bool)
  | link (t : T)
  | share (t : T) (p : Nat)
  | store (p v : Nat)

namespace State

/-- The thread is at another place. -/
def goto (s : State n T) (t : T) (pc : Pc n) : State n T :=
  { s with pc := update s.pc t pc }

/-- The call of the thread has the page in its hands. -/
def Carries (s : State n T) (t : T) (p : Nat) : Prop := (s.pc t).carrying = some p

/-- One step. Only a reference that was handed out is given up or shared, and only a page
that is handed out or in the hands of a call is written to. -/
inductive Step (z : Zone) : State n T → Act n T → State n T → Prop where
  | kalloc {s : State n T} {t : T} (id : Fin n) (h : s.pc t = .idle) :
      Step z s (.kalloc t id)
        (s.goto t (.look [] (id :: (List.finRange n).filter (· ≠ id))))
  | empty {s : State n T} {t : T} {seen rest : List (Fin n)} {id : Fin n}
      (h : s.pc t = .look seen (id :: rest)) (hr : s.mem.head id = 0) :
      Step z s (.inspect t) (s.goto t (.look (id :: seen) rest))
  | take {s : State n T} {t : T} {seen rest : List (Fin n)} {id : Fin n}
      (h : s.pc t = .look seen (id :: rest)) (hr : s.mem.head id ≠ 0) :
      Step z s (.inspect t)
        { s.goto t (.got (s.mem.head id)) with mem := s.mem.pop id }
  | hand {s : State n T} {t : T} {p : Nat} (h : s.pc t = .got p) :
      Step z s (.hand t p)
        { s.goto t .idle with
          mem := s.mem.oneQuota p
          owned := update s.owned p (s.owned p + 1) }
  | fail {s : State n T} {t : T} {seen : List (Fin n)} (h : s.pc t = .look seen []) :
      Step z s (.fail t) (s.goto t .idle)
  | kfree {s : State n T} {t : T} {p : Nat} (id : Fin n) (h : s.pc t = .idle)
      (howned : 0 < s.owned p) (hp : z.manages p) :
      Step z s (.kfree t id p)
        { s.goto t (.drop id p) with owned := update s.owned p (s.owned p - 1) }
  | kfreePanic {s : State n T} {t : T} {p : Nat} (id : Fin n) (h : s.pc t = .idle)
      (howned : 0 < s.owned p) (hp : ¬ z.manages p) :
      Step z s (.kfree t id p) (s.goto t .panicked)
  | unrefMore {s : State n T} {t : T} {id : Fin n} {p : Nat} (h : s.pc t = .drop id p)
      (hcnt : s.mem.quota p - 1 ≠ 0) :
      Step z s (.unref t p false) { s.goto t .idle with mem := s.mem.decQuota p }
  | unrefLast {s : State n T} {t : T} {id : Fin n} {p : Nat} (h : s.pc t = .drop id p)
      (hcnt : s.mem.quota p - 1 = 0) :
      Step z s (.unref t p true) { s.goto t (.put id p) with mem := s.mem.decQuota p }
  | link {s : State n T} {t : T} {id : Fin n} {p : Nat} (h : s.pc t = .put id p) :
      Step z s (.link t) { s.goto t .idle with mem := s.mem.push id p }
  | share {s : State n T} {t : T} {p : Nat} (h : s.pc t = .idle) (howned : 0 < s.owned p)
      (hp : z.manages p) :
      Step z s (.share t p)
        { s with
          mem := s.mem.incQuota p
          owned := update s.owned p (s.owned p + 1) }
  | sharePanic {s : State n T} {t : T} {p : Nat} (h : s.pc t = .idle) (howned : 0 < s.owned p)
      (hp : ¬ z.manages p) : Step z s (.share t p) (s.goto t .panicked)
  | store {s : State n T} {p : Nat} (v : Nat) (h : 0 < s.owned p ∨ ∃ t, s.Carries t p) :
      Step z s (.store p v) { s with mem := s.mem.store p v }

end State

end Xv6K210.Alloc
