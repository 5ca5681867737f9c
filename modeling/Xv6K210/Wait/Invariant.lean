import Xv6K210.Wait.Machine

/-!
# The family of processes

The parent of a process is alive, and only the parent takes a child away: the
process that made it, that gives it to `initproc`, or that reaps it. What a process has read
about a child without its lock stays true until it has the lock.
-/

namespace Xv6K210.Wait

open Base Function

variable {n : Nat} {init : Fin n}

/-- Every process has a slot. -/
theorem mem_slots (k : Fin n) : k ∈ State.slots := List.mem_finRange k

/-! ### Locks -/

/-- The locks are held by those that are at a place where they hold them. -/
def Locked (lock : Fin n → Option (Fin n)) (pc : Fin n → Pc n) : Prop :=
  ∀ p k, k ∈ (pc p).holds p ↔ lock k = some p

namespace Locked

variable {lock : Fin n → Option (Fin n)} {pc : Fin n → Pc n}

/-- A step without locks. -/
theorem goto (h : Locked lock pc) {p : Fin n} {new : Pc n}
    (hsame : new.holds p = (pc p).holds p) : Locked lock (update pc p new) := by
  intro u k
  by_cases hu : u = p
  · rw [hu, update_self, hsame]
    exact h p k
  · rw [update_of_ne hu]
    exact h u k

/-- A lock that is free is taken. -/
theorem acquire (h : Locked lock pc) {p k : Fin n} {new : Pc n} (hfree : lock k = none)
    (hnew : ∀ j, j ∈ new.holds p ↔ j = k ∨ j ∈ (pc p).holds p) :
    Locked (update lock k (some p)) (update pc p new) := by
  intro u j
  by_cases hu : u = p
  · rw [hu, update_self, hnew]
    by_cases hj : j = k
    · rw [hj, update_self]
      exact ⟨fun _ ↦ rfl, fun _ ↦ .inl rfl⟩
    · rw [update_of_ne hj, ← h p j]
      exact ⟨fun hm ↦ hm.resolve_left hj, .inr⟩
  · rw [update_of_ne hu, h u j]
    by_cases hj : j = k
    · rw [hj, update_self, hfree]
      exact ⟨nofun, fun heq ↦ absurd (Option.some.inj heq).symm hu⟩
    · rw [update_of_ne hj]

/-- A lock is given back. -/
theorem release (h : Locked lock pc) {p k : Fin n} {new : Pc n} (hold : k ∈ (pc p).holds p)
    (hnew : ∀ j, j ∈ new.holds p ↔ j ≠ k ∧ j ∈ (pc p).holds p) :
    Locked (update lock k none) (update pc p new) := by
  have hk := (h p k).mp hold
  intro u j
  by_cases hu : u = p
  · rw [hu, update_self, hnew]
    by_cases hj : j = k
    · rw [hj, update_self]
      exact ⟨fun hm ↦ absurd rfl hm.1, nofun⟩
    · rw [update_of_ne hj, ← h p j]
      exact ⟨fun hm ↦ hm.2, fun hm ↦ ⟨hj, hm⟩⟩
  · rw [update_of_ne hu, h u j]
    by_cases hj : j = k
    · rw [hj, update_self, hk]
      exact ⟨fun heq ↦ absurd (Option.some.inj heq).symm hu, nofun⟩
    · rw [update_of_ne hj]

/-- The holder of a lock. -/
theorem unique (h : Locked lock pc) {p u k : Fin n} (hp : k ∈ (pc p).holds p)
    (hu : k ∈ (pc u).holds u) : p = u := by
  have hk := (h p k).mp hp
  rw [(h u k).mp hu] at hk
  exact (Option.some.inj hk).symm

private theorem not_held (h : Locked lock pc) {k : Fin n} (hfree : lock k = none) (p : Fin n) :
    k ∉ (pc p).holds p := by
  rw [h p k, hfree]
  exact nofun

end Locked

/-! ### What a process knows -/

/-- What a process at some place relies on. -/
def Pc.Fits (init : Fin n) (proc : Fin n → Proc n) (p : Fin n) : Pc n → Prop
  | forkHold k => (proc k).state = .unused ∧ (proc k).parent = none
  | forkSet k => (proc k).state = .unused ∧ (proc k).parent = some p
  | exitRead _ | exitParent _ _ | exitSelf _ _ => p ≠ init
  | exitScan _ q rest => p ≠ init ∧ q ≠ p ∧ ∀ j, j ∉ rest → (proc j).parent ≠ some p
  | exitAdopt _ q k rest => p ≠ init ∧ q ≠ p ∧ (proc k).parent = some p ∧
      ∀ j, j ∉ rest → j ≠ k → (proc j).parent ≠ some p
  | waitChild k _ => (proc k).parent = some p
  | _ => True

/-- A change of a slot that the process does not rely on. -/
theorem Pc.Fits.setProc {proc : Fin n → Proc n} {u : Fin n} {pc : Pc n}
    (h : pc.Fits init proc u) {k : Fin n} {x : Proc n}
    (hfork : k ∉ pc.holds u ∨ (proc k).state ≠ .unused) (hold : (proc k).parent ≠ some u)
    (hnew : x.parent = some u → u = init) : pc.Fits init (update proc k x) u := by
  have hkeep : ∀ j, j ≠ k → update proc k x j = proc j := fun j hj ↦
    update_of_ne hj ..
  have hparent : u ≠ init → ∀ j, (proc j).parent ≠ some u →
      (update proc k x j).parent ≠ some u := by
    intro hu j hj hx
    by_cases hjk : j = k
    · rw [hjk, update_self] at hx
      exact hu (hnew hx)
    · rw [hkeep j hjk] at hx
      exact hj hx
  cases pc with
  | forkHold j =>
    have hj : j ≠ k := by
      rintro rfl
      exact hfork.elim (fun hm ↦ hm (List.mem_singleton_self j)) fun hs ↦ hs h.1
    exact ⟨by rw [hkeep j hj]; exact h.1, by rw [hkeep j hj]; exact h.2⟩
  | forkSet j =>
    have hj : j ≠ k := by
      rintro rfl
      exact hold h.2
    exact ⟨by rw [hkeep j hj]; exact h.1, by rw [hkeep j hj]; exact h.2⟩
  | exitScan status q rest => exact ⟨h.1, h.2.1, fun j hj ↦ hparent h.1 j (h.2.2 j hj)⟩
  | exitAdopt status q j rest =>
    have hj : j ≠ k := by
      rintro rfl
      exact hold h.2.2.1
    refine ⟨h.1, h.2.1, ?_, fun i hi hij ↦ hparent h.1 i (h.2.2.2 i hi hij)⟩
    rw [hkeep j hj]
    exact h.2.2.1
  | waitChild j rest =>
    have hj : j ≠ k := by
      rintro rfl
      exact hold h
    change (update proc k x j).parent = some u
    rw [hkeep j hj]
    exact h
  | exitRead status => exact h
  | exitParent status q => exact h
  | exitSelf status q => exact h
  | gone => trivial
  | user => trivial
  | forkScan rest => trivial
  | exitSched => trivial
  | waitLock => trivial
  | waitScan havekids rest => trivial
  | waitSleep => trivial

/-- A change that keeps the parent of a slot and leaves it unused if it is. -/
theorem Pc.Fits.same {proc : Fin n → Proc n} {u : Fin n} {pc : Pc n} (h : pc.Fits init proc u)
    {k : Fin n} {x : Proc n} (hstate : (proc k).state = .unused → x.state = .unused)
    (hparent : x.parent = (proc k).parent) : pc.Fits init (update proc k x) u := by
  have hs : ∀ j, (proc j).state = .unused → (update proc k x j).state = .unused := by
    intro j
    by_cases hj : j = k
    · rw [hj, update_self]
      exact hstate
    · rw [update_of_ne hj]
      exact id
  have hp : ∀ j, (update proc k x j).parent = (proc j).parent := by
    intro j
    by_cases hj : j = k
    · rw [hj, update_self, hparent]
    · rw [update_of_ne hj]
  cases pc with
  | forkHold j => exact ⟨hs j h.1, (hp j).trans h.2⟩
  | forkSet j => exact ⟨hs j h.1, (hp j).trans h.2⟩
  | exitScan status q rest => simpa only [Pc.Fits, hp] using h
  | exitAdopt status q j rest => simpa only [Pc.Fits, hp] using h
  | waitChild j rest => exact (hp j).trans h
  | exitRead status => exact h
  | exitParent status q => exact h
  | exitSelf status q => exact h
  | _ => trivial

/-- The place of a process agrees with its state. -/
def Pc.Phase (pc : Pc n) : ProcState → Prop
  | .unused => pc = .gone
  | .zombie => pc = .exitSched ∨ pc = .gone
  | .live => pc ≠ .gone ∧ pc ≠ .exitSched

/-- The invariant. -/
structure Inv (init : Fin n) (s : State n) : Prop where
  locked : Locked s.lock s.pc
  fits : ∀ p, (s.pc p).Fits init s.proc p
  phase : ∀ p, (s.pc p).Phase (s.proc p).state
  alive : (s.proc init).state = .live
  root : (s.proc init).parent = none
  other : ∀ k, (s.proc k).parent ≠ some k
  parent : ∀ k q, (s.proc k).parent = some q → (s.proc q).state = .live
  child : ∀ k, (s.proc k).state ≠ .unused → k ≠ init → (s.proc k).parent ≠ none
  orphan : ∀ k, (s.proc k).state = .unused →
    (s.proc k).parent = none ∨ ∃ p, s.pc p = .forkSet k

namespace Inv

variable {s : State n}

/-- A process that is at work is alive. -/
theorem live (h : Inv init s) {p : Fin n} (hgone : s.pc p ≠ .gone) (hsched : s.pc p ≠ .exitSched) :
    (s.proc p).state = .live := by
  have hphase := h.phase p
  cases hstate : (s.proc p).state with
  | unused =>
    rw [hstate] at hphase
    exact absurd hphase hgone
  | zombie =>
    rw [hstate] at hphase
    exact absurd hphase (not_or_intro hsched hgone)
  | live => rfl

/-- A slot that is not alive has no children. -/
theorem childless (h : Inv init s) {k : Fin n} (hk : (s.proc k).state ≠ .live) (j : Fin n) :
    (s.proc j).parent ≠ some k := fun hj ↦ hk (h.parent j k hj)

/-- A child whose parent is elsewhere than in `fork` is in use. -/
theorem used (h : Inv init s) {p k : Fin n} (hparent : (s.proc k).parent = some p)
    (hpc : ∀ j, s.pc p ≠ .forkSet j) : (s.proc k).state ≠ .unused := by
  intro hunused
  rcases h.orphan k hunused with hnone | ⟨u, hu⟩
  · rw [hparent] at hnone
    cases hnone
  · have hfits := h.fits u
    rw [hu] at hfits
    have hpu : some p = some u := hparent.symm.trans hfits.2
    cases hpu
    exact hpc k hu

/-- A step that writes to no slot. -/
theorem move (h : Inv init s) {p : Fin n} {new : Pc n} {lock : Fin n → Option (Fin n)}
    (hlocked : Locked lock (update s.pc p new)) (hfits : new.Fits init s.proc p)
    (hphase : new.Phase (s.proc p).state) (hset : ∀ k, s.pc p ≠ .forkSet k) :
    Inv init { s with lock := lock, pc := update s.pc p new } := by
  refine ⟨hlocked, fun u ↦ ?_, fun u ↦ ?_, h.alive, h.root, h.other, h.parent, h.child,
    fun k hk ↦ ?_⟩
  · by_cases hu : u = p
    · rw [hu]
      dsimp only
      rw [update_self]
      exact hfits
    · dsimp only
      rw [update_of_ne hu]
      exact h.fits u
  · by_cases hu : u = p
    · rw [hu]
      dsimp only
      rw [update_self]
      exact hphase
    · dsimp only
      rw [update_of_ne hu]
      exact h.phase u
  · refine (h.orphan k hk).imp_right ?_
    rintro ⟨u, hu⟩
    have hup : u ≠ p := by
      rintro rfl
      exact hset k hu
    exact ⟨u, (update_of_ne hup ..).trans hu⟩

/-- A step of a living process that writes to no slot. -/
theorem walk (h : Inv init s) {p : Fin n} {old new : Pc n} {lock : Fin n → Option (Fin n)}
    (hpc : s.pc p = old) (hlocked : Locked lock (update s.pc p new))
    (hfits : new.Fits init s.proc p)
    (hold : old ≠ .gone ∧ old ≠ .exitSched ∧ ∀ k, old ≠ .forkSet k)
    (hnew : new ≠ .gone ∧ new ≠ .exitSched) :
    Inv init { s with lock := lock, pc := update s.pc p new } := by
  rw [← hpc] at hold
  refine h.move hlocked hfits ?_ hold.2.2
  rw [h.live hold.1 hold.2.1]
  exact hnew

/-- A step that writes to one slot. -/
theorem write (h : Inv init s) {k : Fin n} {x : Proc n} {pc : Fin n → Pc n}
    {lock : Fin n → Option (Fin n)} (nextpid : UInt32) (hlocked : Locked lock pc)
    (hfits : ∀ u, (pc u).Fits init (update s.proc k x) u)
    (hphase : ∀ u, (pc u).Phase (update s.proc k x u).state)
    (halive : k = init → x.state = .live ∧ x.parent = none)
    (hself : x.parent ≠ some k) (hgone : x.state = .live ∨ ∀ j, (s.proc j).parent ≠ some k)
    (hparent : ∀ q, x.parent = some q → q ≠ k → (s.proc q).state = .live)
    (hchild : x.state ≠ .unused → k ≠ init → x.parent ≠ none)
    (hset : ∀ u j, s.pc u = .forkSet j → j ≠ k → pc u = .forkSet j)
    (horphan : x.state = .unused → x.parent = none ∨ ∃ u, pc u = .forkSet k) :
    Inv init ⟨update s.proc k x, lock, pc, nextpid⟩ := by
  have hinit : (update s.proc k x init).state = .live ∧
      (update s.proc k x init).parent = none := by
    by_cases hk : init = k
    · rw [hk, update_self]
      exact halive hk.symm
    · rw [update_of_ne hk]
      exact ⟨h.alive, h.root⟩
  refine ⟨hlocked, hfits, hphase, hinit.1, hinit.2, fun j ↦ ?_, fun j q hj ↦ ?_,
    fun j hj hinit ↦ ?_, fun j hj ↦ ?_⟩
  · dsimp only
    by_cases hjk : j = k
    · rw [hjk, update_self]
      exact hself
    · rw [update_of_ne hjk]
      exact h.other j
  · dsimp only at hj ⊢
    by_cases hq : q = k
    · rw [hq, update_self]
      rw [hq] at hj
      refine hgone.resolve_right fun hnone ↦ ?_
      by_cases hjk : j = k
      · rw [hjk, update_self] at hj
        exact hself hj
      · rw [update_of_ne hjk] at hj
        exact hnone j hj
    · rw [update_of_ne hq]
      by_cases hjk : j = k
      · rw [hjk, update_self] at hj
        exact hparent q hj hq
      · rw [update_of_ne hjk] at hj
        exact h.parent j q hj
  · dsimp only at hj ⊢
    by_cases hjk : j = k
    · rw [hjk, update_self] at hj ⊢
      exact hchild hj (by rwa [hjk] at hinit)
    · rw [update_of_ne hjk] at hj ⊢
      exact h.child j hj hinit
  · dsimp only at hj ⊢
    by_cases hjk : j = k
    · rw [hjk, update_self] at hj ⊢
      exact horphan hj
    · rw [update_of_ne hjk] at hj ⊢
      exact (h.orphan j hj).imp_right fun ⟨u, hu⟩ ↦ ⟨u, hset u j hu hjk⟩

/-- A step of one process that writes to one slot. -/
theorem change (h : Inv init s) {p k : Fin n} {x : Proc n} {new : Pc n}
    {lock : Fin n → Option (Fin n)} (nextpid : UInt32)
    (hlocked : Locked lock (update s.pc p new))
    (hnew : new.Fits init (update s.proc k x) p)
    (hothers : ∀ u, u ≠ p → (s.pc u).Fits init (update s.proc k x) u)
    (hp : new.Phase (update s.proc k x p).state)
    (hk : k ≠ p → (s.pc k).Phase x.state) (halive : k = init → x.state = .live ∧ x.parent = none)
    (hself : x.parent ≠ some k) (hgone : x.state = .live ∨ ∀ j, (s.proc j).parent ≠ some k)
    (hparent : ∀ q, x.parent = some q → q ≠ k → (s.proc q).state = .live)
    (hchild : x.state ≠ .unused → k ≠ init → x.parent ≠ none)
    (hset : ∀ j, s.pc p = .forkSet j → j = k)
    (horphan : x.state = .unused → x.parent = none ∨ new = .forkSet k) :
    Inv init ⟨update s.proc k x, lock, update s.pc p new, nextpid⟩ := by
  refine h.write nextpid hlocked (fun u ↦ ?_) (fun u ↦ ?_) halive hself hgone hparent
    hchild (fun u j hu hj ↦ ?_) fun hx ↦ ?_
  · by_cases hu : u = p
    · rw [hu, update_self]
      exact hnew
    · rw [update_of_ne hu]
      exact hothers u hu
  · by_cases hu : u = p
    · rw [hu, update_self]
      exact hp
    · rw [update_of_ne hu]
      by_cases huk : u = k
      · rw [huk, update_self]
        exact hk (by rwa [← huk])
      · rw [update_of_ne huk]
        exact h.phase u
  · have hup : u ≠ p := by
      rintro rfl
      exact hj (hset j hu)
    rw [update_of_ne hup]
    exact hu
  · refine (horphan hx).imp_right fun heq ↦ ⟨p, ?_⟩
    rw [update_self]
    exact heq

/-- `allocproc` writes to a slot that nobody uses. -/
theorem allocated (h : Inv init s) {p k : Fin n} {x : Proc n} {new : Pc n}
    {lock : Fin n → Option (Fin n)} (nextpid : UInt32) {rest : List (Fin n)}
    (hpc : s.pc p = .forkScan (k :: rest)) (hlock : s.lock k = none)
    (hunused : (s.proc k).state = .unused) (hstate : x.state = (s.proc k).state)
    (hparent : x.parent = (s.proc k).parent)
    (hlocked : Locked lock (update s.pc p new)) (hnew : new = .forkHold k ∨ new = .user) :
    Inv init ⟨update s.proc k x, lock, update s.pc p new, nextpid⟩ := by
  have hlive := h.live (p := p) (by rw [hpc]; exact nofun) (by rw [hpc]; exact nofun)
  have hkp : p ≠ k := by
    rintro rfl
    rw [hunused] at hlive
    cases hlive
  -- the slot has no parent, since nobody has its lock
  have hnone : (s.proc k).parent = none := by
    refine (h.orphan k hunused).resolve_right ?_
    rintro ⟨u, hu⟩
    apply h.locked.not_held hlock u
    rw [hu]
    exact List.mem_singleton_self k
  have hphase := h.phase k
  rw [hunused] at hphase
  refine h.change nextpid hlocked ?_ (fun u _ ↦ (h.fits u).same (hstate.trans ·) hparent) ?_
    (fun _ ↦ ?_)
    (fun hk ↦ ?_) ?_ (.inr fun j ↦ h.childless (by rw [hunused]; exact nofun) j)
    (fun q hq ↦ ?_) (fun hx ↦ ?_) (fun j hj ↦ ?_) fun _ ↦ .inl (hparent.trans hnone)
  · rcases hnew with rfl | rfl
    · refine ⟨?_, ?_⟩
      · rw [update_self, hstate, hunused]
      · rw [update_self, hparent, hnone]
    · trivial
  · rw [update_of_ne hkp, hlive]
    rcases hnew with rfl | rfl
    · exact ⟨nofun, nofun⟩
    · exact ⟨nofun, nofun⟩
  · rw [hstate, hunused]
    exact hphase
  · have halive := h.alive
    rw [← hk, hunused] at halive
    cases halive
  · rw [hparent, hnone]
    exact nofun
  · rw [hparent, hnone] at hq
    cases hq
  · exact absurd (hstate.trans hunused) hx
  · rw [hpc] at hj
    cases hj

/-- What `fork` knows about the slot whose lock it holds. -/
theorem forking (h : Inv init s) {p k : Fin n} (hpc : s.pc p = .forkHold k ∨ s.pc p = .forkSet k) :
    (s.proc p).state = .live ∧ (s.proc k).state = .unused ∧ p ≠ k ∧ k ≠ init ∧ s.pc k = .gone ∧
      k ∈ (s.pc p).holds p ∧ ((s.proc k).parent = none ∨ (s.proc k).parent = some p) := by
  have hlive : (s.proc p).state = .live := by
    rcases hpc with hpc | hpc
    · exact h.live (by rw [hpc]; exact nofun) (by rw [hpc]; exact nofun)
    · exact h.live (by rw [hpc]; exact nofun) (by rw [hpc]; exact nofun)
  have hfits := h.fits p
  have hslot : (s.proc k).state = .unused ∧
      ((s.proc k).parent = none ∨ (s.proc k).parent = some p) := by
    rcases hpc with hpc | hpc
    · rw [hpc] at hfits
      exact ⟨hfits.1, .inl hfits.2⟩
    · rw [hpc] at hfits
      exact ⟨hfits.1, .inr hfits.2⟩
  have hphase := h.phase k
  rw [hslot.1] at hphase
  refine ⟨hlive, hslot.1, ?_, ?_, hphase, ?_, hslot.2⟩
  · rintro rfl
    rw [hslot.1] at hlive
    cases hlive
  · rintro rfl
    have halive := h.alive
    rw [hslot.1] at halive
    cases halive
  · rcases hpc with hpc | hpc
    · rw [hpc]
      exact List.mem_singleton_self k
    · rw [hpc]
      exact List.mem_singleton_self k

/-- Nobody but the process in `fork` relies on the slot that it is making. -/
theorem others_forking (h : Inv init s) {p k : Fin n} {x : Proc n}
    (hpc : s.pc p = .forkHold k ∨ s.pc p = .forkSet k)
    (hx : x.parent = none ∨ x.parent = some p) (u : Fin n) (hu : u ≠ p) :
    (s.pc u).Fits init (update s.proc k x) u := by
  obtain ⟨_, _, _, _, _, hholds, hparent⟩ := h.forking hpc
  refine (h.fits u).setProc (.inl fun hm ↦ hu (h.locked.unique hm hholds)) ?_ fun hxu ↦ ?_
  · rcases hparent with hnone | hp
    · rw [hnone]
      exact nofun
    · rw [hp]
      exact fun heq ↦ hu (Option.some.inj heq).symm
  · rcases hx with hx | hx
    · rw [hx] at hxu
      cases hxu
    · rw [hx] at hxu
      exact absurd (Option.some.inj hxu).symm hu

/-- A step of a living process that writes to no slot and to no lock. -/
theorem stroll (h : Inv init s) {p : Fin n} {old new : Pc n} (hpc : s.pc p = old)
    (hsame : new.holds p = old.holds p) (hfits : new.Fits init s.proc p)
    (hold : old ≠ .gone ∧ old ≠ .exitSched ∧ ∀ k, old ≠ .forkSet k)
    (hnew : new ≠ .gone ∧ new ≠ .exitSched) : Inv init (s.goto p new) :=
  h.walk hpc (h.locked.goto (by rw [hsame, hpc])) hfits hold hnew

/-- A step of a living process that takes a lock and writes to no slot. -/
theorem acquire (h : Inv init s) {p k : Fin n} {old new : Pc n} (hpc : s.pc p = old)
    (hlock : s.lock k = none) (hholds : ∀ j, j ∈ new.holds p ↔ j = k ∨ j ∈ old.holds p)
    (hfits : new.Fits init s.proc p) (hold : old ≠ .gone ∧ old ≠ .exitSched ∧ ∀ k, old ≠ .forkSet k)
    (hnew : new ≠ .gone ∧ new ≠ .exitSched) : Inv init ((s.setLock k (some p)).goto p new) :=
  h.walk hpc (h.locked.acquire hlock (by rwa [hpc])) hfits hold hnew

/-- `fork` fails with the lock of the child. -/
theorem forkBad (h : Inv init s) {p k : Fin n} (hpc : s.pc p = .forkHold k) :
    Inv init (((s.setProc k .free).setLock k none).goto p .user) := by
  obtain ⟨hlive, hunused, hpk, hk, hgone, hholds, _⟩ := h.forking (.inl hpc)
  refine h.change s.nextpid (h.locked.release hholds fun j ↦ ?_) trivial
    (h.others_forking (.inl hpc) (.inl rfl)) ?_ (fun _ ↦ hgone) (fun heq ↦ absurd heq hk)
    nofun (.inr fun j ↦ h.childless (by rw [hunused]; exact nofun) j) nofun
    (fun hx ↦ absurd rfl hx) (fun j hj ↦ ?_) fun _ ↦ .inl rfl
  · rw [hpc]
    refine ⟨fun hm ↦ absurd hm List.not_mem_nil, fun hm ↦ ?_⟩
    exact absurd (List.mem_singleton.mp hm.2) hm.1
  · rw [update_of_ne hpk, hlive]
    exact ⟨nofun, nofun⟩
  · rw [hpc] at hj
    cases hj

/-- `np->parent = p`. -/
theorem forkParent (h : Inv init s) {p k : Fin n} (hpc : s.pc p = .forkHold k) :
    Inv init ((s.setProc k { s.proc k with parent := some p }).goto p (.forkSet k)) := by
  obtain ⟨hlive, hunused, hpk, hk, hgone, hholds, _⟩ := h.forking (.inl hpc)
  refine h.change s.nextpid (h.locked.goto (by rw [hpc]; rfl)) ?_
    (h.others_forking (.inl hpc) (.inr rfl)) ?_ (fun _ ↦ ?_) (fun heq ↦ absurd heq hk)
    ?_ (.inr fun j ↦ h.childless (by rw [hunused]; exact nofun) j) (fun q hq _ ↦ ?_)
    (fun _ _ ↦ nofun) (fun j hj ↦ ?_) fun _ ↦ .inr rfl
  · refine ⟨?_, ?_⟩
    · rw [update_self]
      exact hunused
    · rw [update_self]
  · rw [update_of_ne hpk, hlive]
    exact ⟨nofun, nofun⟩
  · change (s.pc k).Phase (s.proc k).state
    rw [hunused]
    exact hgone
  · exact fun heq ↦ hpk (Option.some.inj heq)
  · cases hq
    exact hlive
  · rw [hpc] at hj
    cases hj

/-- The child is runnable. -/
theorem forkDone (h : Inv init s) {p k : Fin n} (hpc : s.pc p = .forkSet k) :
    Inv init ((((s.setProc k { s.proc k with state := .live }).setLock k none).goto k .user).goto p
      .user) := by
  obtain ⟨hlive, hunused, hpk, hk, hgone, hholds, _⟩ := h.forking (.inr hpc)
  have hfits := h.fits p
  rw [hpc] at hfits
  have hself : update s.pc k .user p = .forkSet k := by
    rw [update_of_ne hpk, hpc]
  have hlocked : Locked s.lock (update s.pc k .user) :=
    h.locked.goto (by rw [hgone]; rfl)
  have hpcs : ∀ u, update (update s.pc k .user) p .user u = .user ∨
      u ≠ p ∧ u ≠ k ∧ update (update s.pc k .user) p .user u = s.pc u := by
    intro u
    by_cases hup : u = p
    · left
      rw [hup, update_self]
    · rw [update_of_ne hup]
      by_cases huk : u = k
      · left
        rw [huk, update_self]
      · exact .inr ⟨hup, huk, by rw [update_of_ne huk]⟩
  change Inv init ⟨update s.proc k { s.proc k with state := .live },
    update s.lock k none, update (update s.pc k .user) p .user,
    s.nextpid⟩
  refine h.write s.nextpid (hlocked.release (p := p) (k := k) ?_ fun j ↦ ?_) (fun u ↦ ?_)
    (fun u ↦ ?_) (fun heq ↦ absurd heq hk) (h.other k) (.inl rfl) (fun q hq _ ↦ ?_) (fun _ _ ↦ ?_)
      (fun u j hu hj ↦ ?_) nofun
  · rw [hself]
    exact List.mem_singleton_self k
  · rw [hself]
    refine ⟨fun hm ↦ absurd hm List.not_mem_nil, fun hm ↦ ?_⟩
    exact absurd (List.mem_singleton.mp hm.2) hm.1
  · rcases hpcs u with heq | ⟨hup, _, heq⟩
    · rw [heq]
      trivial
    · rw [heq]
      exact h.others_forking (x := { s.proc k with state := .live }) (.inr hpc) (.inr hfits.2) u hup
  · rcases hpcs u with heq | ⟨hup, huk, heq⟩
    · rw [heq]
      have hstate : (update s.proc k { s.proc k with state := .live } u).state = .live := by
        by_cases huk : u = k
        · rw [huk, update_self]
        · rw [update_of_ne huk]
          by_cases hup : u = p
          · rw [hup, hlive]
          · rw [update_of_ne hup, update_of_ne huk] at heq
            exact h.live (by rw [heq]; exact nofun) (by rw [heq]; exact nofun)
      rw [hstate]
      exact ⟨nofun, nofun⟩
    · rw [heq, update_of_ne huk]
      exact h.phase u
  · have hp : (s.proc k).parent = some q := hq
    rw [hfits.2] at hp
    cases hp
    exact hlive
  · change (s.proc k).parent ≠ none
    rw [hfits.2]
    exact nofun
  · have hup : u ≠ p := by
      rintro rfl
      rw [hpc] at hu
      cases hu
      exact hj rfl
    have huk : u ≠ k := by
      rintro rfl
      rw [hgone] at hu
      cases hu
    rw [update_of_ne hup, update_of_ne huk]
    exact hu

/-- `reparent` gives a child to `initproc`. -/
theorem reparent (h : Inv init s) {p q k : Fin n} {status : Int} {rest : List (Fin n)}
    (hpc : s.pc p = .exitAdopt status q k rest) :
    Inv init ((s.setProc k { s.proc k with parent := some init }).goto p
      (.exitScan status q rest)) := by
  have hlive := h.live (p := p) (by rw [hpc]; exact nofun) (by rw [hpc]; exact nofun)
  have hfits := h.fits p
  rw [hpc] at hfits
  obtain ⟨hinit, hqp, hparent, hscan⟩ := hfits
  have hused := h.used hparent (by rw [hpc]; exact nofun)
  have hk : k ≠ init := by
    rintro rfl
    rw [h.root] at hparent
    cases hparent
  refine h.change s.nextpid (h.locked.goto (by rw [hpc]; rfl)) ⟨hinit, hqp, fun j hj ↦ ?_⟩
    (fun u hu ↦ ?_) ?_ (fun _ ↦ h.phase k) (fun heq ↦ absurd heq hk)
    (fun heq ↦ hk (Option.some.inj heq).symm) ?_ (fun r hr _ ↦ ?_) (fun _ _ ↦ nofun)
    (fun j hj ↦ ?_) fun hx ↦ absurd hx hused
  · by_cases hjk : j = k
    · rw [hjk, update_self]
      exact fun heq ↦ hinit (Option.some.inj heq).symm
    · rw [update_of_ne hjk]
      exact hscan j hj hjk
  · refine (h.fits u).setProc (.inr hused) ?_ fun heq ↦ (Option.some.inj heq).symm
    rw [hparent]
    exact fun heq ↦ hu (Option.some.inj heq).symm
  · by_cases hpk : p = k
    · rw [hpk, update_self]
      change Pc.Phase _ (s.proc k).state
      rw [← hpk, hlive]
      exact ⟨nofun, nofun⟩
    · rw [update_of_ne hpk, hlive]
      exact ⟨nofun, nofun⟩
  · by_cases hk : (s.proc k).state = .live
    · exact .inl hk
    · exact .inr (h.childless hk)
  · cases hr
    exact h.alive
  · rw [hpc] at hj
    cases hj

/-- A process without children turns into a zombie. -/
theorem exitDone (h : Inv init s) {p q : Fin n} {status : Int}
    (hpc : s.pc p = .exitScan status q []) :
    Inv init (((s.setProc p { s.proc p with xstate := status, state := .zombie }).setLock q
      none).goto p .exitSched) := by
  have hlive := h.live (p := p) (by rw [hpc]; exact nofun) (by rw [hpc]; exact nofun)
  have hfits := h.fits p
  rw [hpc] at hfits
  obtain ⟨hinit, hqp, hscan⟩ := hfits
  have hnone : ∀ j, (s.proc j).parent ≠ some p := fun j ↦ hscan j List.not_mem_nil
  refine h.change s.nextpid (h.locked.release (p := p) (k := q) ?_ fun j ↦ ?_) trivial
    (fun u hu ↦ ?_) ?_ (fun hne ↦ absurd rfl hne) (fun heq ↦ absurd heq hinit)
    (hnone p) (.inr hnone) (fun r hr _ ↦ h.parent p r hr) (fun _ _ ↦ ?_) (fun j hj ↦ ?_) nofun
  · rw [hpc]
    exact List.mem_cons_self
  · rw [hpc]
    change j ∈ [p] ↔ j ≠ q ∧ j ∈ [q, p]
    rw [List.mem_singleton, List.mem_cons, List.mem_singleton]
    constructor
    · rintro rfl
      exact ⟨hqp.symm, .inr rfl⟩
    · rintro ⟨hjq, hj⟩
      exact hj.resolve_left hjq
  · refine (h.fits u).same (fun hunused ↦ ?_) rfl
    rw [hlive] at hunused
    cases hunused
  · rw [update_self]
    exact .inl rfl
  · exact h.child p (by rw [hlive]; exact nofun) hinit
  · rw [hpc] at hj
    cases hj

/-- A zombie leaves the CPU. -/
theorem exitSched (h : Inv init s) {p : Fin n} (hpc : s.pc p = .exitSched) :
    Inv init ((s.setLock p none).goto p .gone) := by
  refine h.move (h.locked.release (p := p) (k := p) ?_ fun j ↦ ?_) trivial ?_ fun k hk ↦ ?_
  · rw [hpc]
    exact List.mem_singleton_self p
  · rw [hpc]
    refine ⟨fun hm ↦ absurd hm List.not_mem_nil, fun hm ↦ ?_⟩
    exact absurd (List.mem_singleton.mp hm.2) hm.1
  · have hphase := h.phase p
    rw [hpc] at hphase
    cases hstate : (s.proc p).state with
    | unused => rfl
    | zombie => exact .inr rfl
    | live =>
      rw [hstate] at hphase
      exact absurd rfl hphase.2
  · rw [hpc] at hk
    cases hk

/-- What `wait` knows about a zombie whose lock it has. -/
theorem waiting (h : Inv init s) {p k : Fin n} {rest : List (Fin n)}
    (hpc : s.pc p = .waitChild k rest) (hlock : s.lock k = none)
    (hzombie : (s.proc k).state = .zombie) :
    (s.proc p).state = .live ∧ (s.proc k).parent = some p ∧ p ≠ k ∧ k ≠ init ∧ s.pc k = .gone := by
  have hlive := h.live (p := p) (by rw [hpc]; exact nofun) (by rw [hpc]; exact nofun)
  have hparent := h.fits p
  rw [hpc] at hparent
  have hphase := h.phase k
  rw [hzombie] at hphase
  refine ⟨hlive, hparent, ?_, ?_, hphase.resolve_left fun hk ↦ ?_⟩
  · rintro rfl
    rw [hzombie] at hlive
    cases hlive
  · rintro rfl
    have halive := h.alive
    rw [hzombie] at halive
    cases halive
  · -- a zombie on the way to the scheduler has its own lock
    apply h.locked.not_held hlock k
    rw [hk]
    exact List.mem_singleton_self k

/-- `wait` gives its own lock back. -/
theorem waitReturn (h : Inv init s) {p : Fin n} {new : Pc n}
    (hpc : (s.pc p).holds p = [p]) (hnew : new.holds p = []) :
    Locked (update s.lock p none) (update s.pc p new) := by
  refine h.locked.release ?_ fun j ↦ ?_
  · rw [hpc]
    exact List.mem_singleton_self p
  · rw [hpc, hnew]
    refine ⟨fun hm ↦ absurd hm List.not_mem_nil, fun hm ↦ ?_⟩
    exact absurd (List.mem_singleton.mp hm.2) hm.1

/-- The status address is bad. -/
theorem waitBad (h : Inv init s) {p k : Fin n} {rest : List (Fin n)}
    (hpc : s.pc p = .waitChild k rest) (hlock : s.lock k = none)
    (hzombie : (s.proc k).state = .zombie) :
    Inv init (((s.setProc k { s.proc k with vm := false }).setLock p none).goto p .user) := by
  obtain ⟨hlive, hparent, hpk, hk, hgone⟩ := h.waiting hpc hlock hzombie
  refine h.change s.nextpid (h.waitReturn (by rw [hpc]; rfl) rfl) trivial
    (fun u _ ↦ (h.fits u).same id rfl) ?_ (fun _ ↦ h.phase k) (fun heq ↦ absurd heq hk)
    (h.other k) (.inr fun j ↦ h.childless (by rw [hzombie]; exact nofun) j)
    (fun q hq _ ↦ h.parent k q hq) (fun hx ↦ h.child k hx) (fun j hj ↦ ?_) fun hx ↦ ?_
  · rw [update_of_ne hpk, hlive]
    exact ⟨nofun, nofun⟩
  · rw [hpc] at hj
    cases hj
  · change (s.proc k).state = .unused at hx
    rw [hzombie] at hx
    cases hx

/-- A child is reaped. -/
theorem reap (h : Inv init s) {p k : Fin n} {rest : List (Fin n)}
    (hpc : s.pc p = .waitChild k rest) (hlock : s.lock k = none)
    (hzombie : (s.proc k).state = .zombie) :
    Inv init (((s.setProc k .free).setLock p none).goto p .user) := by
  obtain ⟨hlive, hparent, hpk, hk, hgone⟩ := h.waiting hpc hlock hzombie
  refine h.change s.nextpid (h.waitReturn (by rw [hpc]; rfl) rfl) trivial
    (fun u hu ↦ (h.fits u).setProc (.inr (by rw [hzombie]; exact nofun)) ?_ nofun) ?_
    (fun _ ↦ hgone) (fun heq ↦ absurd heq hk) nofun
    (.inr fun j ↦ h.childless (by rw [hzombie]; exact nofun) j) nofun
    (fun hx ↦ absurd rfl hx) (fun j hj ↦ ?_) fun _ ↦ .inl rfl
  · rw [hparent]
    exact fun heq ↦ hu (Option.some.inj heq).symm
  · rw [update_of_ne hpk, hlive]
    exact ⟨nofun, nofun⟩
  · rw [hpc] at hj
    cases hj

/-- `exit` takes its own lock, after that of its parent. -/
theorem exitSelf (h : Inv init s) {p q : Fin n} {status : Int}
    (hpc : s.pc p = .exitSelf status q) (hlock : s.lock p = none) :
    Inv init ((s.setLock p (some p)).goto p (.exitScan status q State.slots)) := by
  have hfits := h.fits p
  rw [hpc] at hfits
  have hq : s.lock q = some p := by
    apply (h.locked p q).mp
    rw [hpc]
    exact List.mem_singleton_self q
  refine h.acquire hpc hlock (fun j ↦ ?_) ⟨hfits, ?_, fun j hj ↦ absurd (mem_slots j) hj⟩
    ⟨nofun, nofun, nofun⟩ ⟨nofun, nofun⟩
  · change j ∈ [q, p] ↔ j = p ∨ j ∈ [q]
    rw [List.mem_cons, List.mem_singleton, List.mem_singleton, or_comm]
  · rintro rfl
    rw [hlock] at hq
    cases hq

/-- Every step keeps the invariant. -/
theorem step (h : Inv init s) {a : Act n} {s' : State n} (hstep : State.Step init s a s') :
    Inv init s' := by
  cases hstep with
  | fork hpc => exact h.stroll hpc rfl trivial ⟨nofun, nofun, nofun⟩ ⟨nofun, nofun⟩
  | forkNext hpc hlock hused =>
    exact h.stroll hpc rfl trivial ⟨nofun, nofun, nofun⟩ ⟨nofun, nofun⟩
  | forkFull hpc => exact h.stroll hpc rfl trivial ⟨nofun, nofun, nofun⟩ ⟨nofun, nofun⟩
  | forkFound hpc hlock hunused =>
    refine h.allocated _ hpc hlock hunused rfl rfl (h.locked.acquire hlock fun j ↦ ?_) (.inl rfl)
    rw [hpc]
    exact List.mem_cons
  | forkNoFrame hpc hlock hunused =>
    exact h.allocated _ hpc hlock hunused rfl rfl (h.locked.goto (by rw [hpc]; rfl)) (.inr rfl)
  | forkBad hpc => exact h.forkBad hpc
  | forkParent hpc => exact h.forkParent hpc
  | forkDone hpc => exact h.forkDone hpc
  | exit status hpc hinit => exact h.stroll hpc rfl hinit ⟨nofun, nofun, nofun⟩ ⟨nofun, nofun⟩
  | @exitRead p _ _ hpc hlock hparent =>
    have hfits := h.fits p
    rw [hpc] at hfits
    exact h.stroll hpc rfl hfits ⟨nofun, nofun, nofun⟩ ⟨nofun, nofun⟩
  | @exitParent p _ _ hpc hlock =>
    have hfits := h.fits p
    rw [hpc] at hfits
    exact h.acquire hpc hlock (fun _ ↦ List.mem_cons) hfits ⟨nofun, nofun, nofun⟩ ⟨nofun, nofun⟩
  | exitSelf hpc hlock => exact h.exitSelf hpc hlock
  | @reparentNext p _ k _ rest hpc hparent =>
    have hfits := h.fits p
    rw [hpc] at hfits
    refine h.stroll hpc rfl ⟨hfits.1, hfits.2.1, fun j hj ↦ ?_⟩ ⟨nofun, nofun, nofun⟩
      ⟨nofun, nofun⟩
    by_cases hjk : j = k
    · rwa [hjk]
    · exact hfits.2.2 j (List.not_mem_cons_of_ne_of_not_mem hjk hj)
  | @reparentSee p _ k _ rest hpc hparent =>
    have hfits := h.fits p
    rw [hpc] at hfits
    exact h.stroll hpc rfl ⟨hfits.1, hfits.2.1, hparent, fun j hj hjk ↦
      hfits.2.2 j (List.not_mem_cons_of_ne_of_not_mem hjk hj)⟩ ⟨nofun, nofun, nofun⟩
      ⟨nofun, nofun⟩
  | reparent hpc hlock => exact h.reparent hpc
  | exitDone hpc => exact h.exitDone hpc
  | exitSched hpc => exact h.exitSched hpc
  | wait hpc => exact h.stroll hpc rfl trivial ⟨nofun, nofun, nofun⟩ ⟨nofun, nofun⟩
  | waitLock hpc hlock | waitWoken hpc hlock =>
    exact h.acquire hpc hlock (fun _ ↦ List.mem_cons) trivial ⟨nofun, nofun, nofun⟩ ⟨nofun, nofun⟩
  | waitNext hpc hparent => exact h.stroll hpc rfl trivial ⟨nofun, nofun, nofun⟩ ⟨nofun, nofun⟩
  | waitSee hpc hparent => exact h.stroll hpc rfl hparent ⟨nofun, nofun, nofun⟩ ⟨nofun, nofun⟩
  | waitLive hpc hlock hzombie =>
    exact h.stroll hpc rfl trivial ⟨nofun, nofun, nofun⟩ ⟨nofun, nofun⟩
  | waitBad hpc hlock hzombie => exact h.waitBad hpc hlock hzombie
  | reap hpc hlock hzombie => exact h.reap hpc hlock hzombie
  | waitNoChildren hpc | waitSleep hpc =>
    exact h.walk hpc (h.waitReturn (by rw [hpc]; rfl) rfl) trivial ⟨nofun, nofun, nofun⟩
      ⟨nofun, nofun⟩
  | waitInterrupted hpc hlock =>
    exact h.stroll hpc rfl trivial ⟨nofun, nofun, nofun⟩ ⟨nofun, nofun⟩

/-- `userinit` establishes the invariant. -/
theorem start (init : Fin n) : Inv init (State.start init) := by
  have hother : ∀ p, p ≠ init → (State.start init).proc p = .free ∧
      (State.start init).pc p = .gone := by
    intro p hp
    simp only [State.start, update_of_ne hp, and_self]
  have hinit : (State.start init).proc init = ⟨.live, 1, none, 0, true⟩ := by
    simp only [State.start, update_self]
  have hpc : (State.start init).pc init = .user := by
    simp only [State.start, update_self]
  have hnone : ∀ k, ((State.start init).proc k).parent = none := by
    intro k
    by_cases hk : k = init
    · rw [hk, hinit]
    · rw [(hother k hk).1]
      rfl
  refine ⟨fun p k ↦ ?_, fun p ↦ ?_, fun p ↦ ?_, ?_, hnone init, fun k ↦ ?_, fun k q hk ↦ ?_,
    fun k hk hne ↦ ?_, fun k _ ↦ .inl (hnone k)⟩
  · have hholds : ((State.start init).pc p).holds p = [] := by
      by_cases hp : p = init
      · rw [hp, hpc]
        rfl
      · rw [(hother p hp).2]
        rfl
    rw [hholds]
    exact ⟨nofun, nofun⟩
  · by_cases hp : p = init
    · rw [hp, hpc]
      trivial
    · rw [(hother p hp).2]
      trivial
  · by_cases hp : p = init
    · rw [hp, hpc, hinit]
      exact ⟨nofun, nofun⟩
    · rw [(hother p hp).1, (hother p hp).2]
      rfl
  · rw [hinit]
  · rw [hnone k]
    exact nofun
  · rw [hnone k] at hk
    cases hk
  · rw [(hother k hne).1] at hk
    exact absurd rfl hk

/-- Every state that the processes reach has the invariant. -/
theorem of_runs {acts : List (Act n)} (hrun : Runs (State.Step init) (State.start init) acts s) :
    Inv init s :=
  hrun.invariant (Inv init) (fun _ _ _ hs hstep ↦ hs.step hstep) (start init)

end Inv

end Xv6K210.Wait
