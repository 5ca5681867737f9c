import Mathlib.Data.Fintype.Card
import Xv6K210.Wait.Invariant

/-!
# Every child is accounted for once

What happens to a slot goes around in one circle: a process is born there, dies
there, and is reaped with the pid it was born with and the status it died with. A `wait` that
fails takes nothing away, and a zombie is found by the next `wait` that is left alone.
-/

namespace Xv6K210.Wait

open Base Function

variable {n : Nat} {init : Fin n}

/-! ### The life of a slot -/

/-- How far a slot is in its circle. -/
inductive Life where
  | free
  | alive (pid : UInt32)
  | dead (pid : UInt32) (status : Int)
  deriving DecidableEq, Repr

namespace Life

/-- Only a free slot gets a process. -/
def born : Life → UInt32 → Option Life
  | free, pid => some (alive pid)
  | _, _ => none

/-- Only a living process dies, under its own pid. -/
def died : Life → UInt32 → Int → Option Life
  | alive own, pid, status => if own = pid then some (dead pid status) else none
  | _, _, _ => none

/-- Only a dead process is reaped, with its own pid and status. -/
def reaped : Life → UInt32 → Int → Option Life
  | dead own result, pid, status => if own = pid ∧ result = status then some free else none
  | _, _, _ => none

/-- What may happen to the slot `k`. -/
def next (k : Fin n) (life : Life) : Act n → Option Life
  | .born _ j pid => if j = k then life.born pid else some life
  | .died j pid status => if j = k then life.died pid status else some life
  | .reap _ j pid status => if j = k then life.reaped pid status else some life
  | _ => some life

/-- The slots at the start: `initproc` is alive. -/
def initial (init k : Fin n) : Life := if k = init then alive 1 else free

/-- A slot at some point of its circle. -/
def Of : Life → Proc n → Prop
  | free, x => x.state = .unused
  | alive pid, x => x.state = .live ∧ x.pid = pid
  | dead pid status, x => x.state = .zombie ∧ x.pid = pid ∧ x.xstate = status

variable {life : Life} {x y : Proc n}

/-- A slot that stays unused. -/
theorem Of.unused (h : life.Of x) (hx : x.state = .unused) (hy : y.state = .unused) :
    life.Of y := by
  cases life with
  | free => exact hy
  | alive pid =>
    have hlive := h.1
    rw [hx] at hlive
    cases hlive
  | dead pid status =>
    have hzombie := h.1
    rw [hx] at hzombie
    cases hzombie

/-- A change of what the circle does not look at. -/
theorem Of.same (h : life.Of x) (hstate : y.state = x.state) (hpid : y.pid = x.pid)
    (hxstate : y.xstate = x.xstate) : life.Of y := by
  cases life with
  | free => exact hstate.trans h
  | alive pid => exact ⟨hstate.trans h.1, hpid.trans h.2⟩
  | dead pid status => exact ⟨hstate.trans h.1, hpid.trans h.2.1, hxstate.trans h.2.2⟩

/-- A slot is written, and the circle of `k` does not move. -/
theorem Of.put {proc : Fin n → Proc n} {k : Fin n} (h : life.Of (proc k)) {j : Fin n}
    (hx : j = k → life.Of (proc j) → life.Of x) : life.Of (update proc j x k) := by
  by_cases hk : k = j
  · subst hk
    rw [update_self]
    exact hx rfl h
  · rw [update_of_ne hk]
    exact h

/-- The end of `fork`. -/
theorem Of.born (h : life.Of x) (hx : x.state = .unused) (hy : y.state = .live)
    (hpid : y.pid = x.pid) : ∃ life', life.born x.pid = some life' ∧ life'.Of y := by
  cases life with
  | free => exact ⟨_, rfl, hy, hpid⟩
  | alive pid =>
    have hlive := h.1
    rw [hx] at hlive
    cases hlive
  | dead pid status =>
    have hzombie := h.1
    rw [hx] at hzombie
    cases hzombie

/-- The end of `exit`. -/
theorem Of.died (h : life.Of x) (hx : x.state = .live) (hy : y.state = .zombie)
    (hpid : y.pid = x.pid) : ∃ life', life.died x.pid y.xstate = some life' ∧ life'.Of y := by
  cases life with
  | free =>
    have hunused : x.state = .unused := h
    rw [hx] at hunused
    cases hunused
  | alive pid => exact ⟨_, if_pos h.2.symm, hy, hpid, rfl⟩
  | dead pid status =>
    have hzombie := h.1
    rw [hx] at hzombie
    cases hzombie

/-- The end of `wait`. -/
theorem Of.reaped (h : life.Of x) (hx : x.state = .zombie) (hy : y.state = .unused) :
    ∃ life', life.reaped x.pid x.xstate = some life' ∧ life'.Of y := by
  cases life with
  | free =>
    have hunused : x.state = .unused := h
    rw [hx] at hunused
    cases hunused
  | alive pid =>
    have hlive := h.1
    rw [hx] at hlive
    cases hlive
  | dead pid status => exact ⟨_, if_pos ⟨h.2.1.symm, h.2.2.symm⟩, hy⟩

end Life

namespace Inv

variable {s s' : State n} {a : Act n} {life : Life}

/-- Every step moves each slot along its circle. -/
theorem life_step (h : Inv init s) (hstep : State.Step init s a s') {k : Fin n}
    (hlife : life.Of (s.proc k)) :
    ∃ life', life.next k a = some life' ∧ life'.Of (s'.proc k) := by
  cases hstep with
  | forkFound hpc hlock hunused =>
    exact ⟨life, rfl, hlife.put fun _ hj ↦ hj.unused hunused hunused⟩
  | forkNoFrame hpc hlock hunused =>
    exact ⟨life, rfl, hlife.put fun _ hj ↦ hj.unused hunused hunused⟩
  | forkBad hpc =>
    have hunused := (h.forking (.inl hpc)).2.1
    exact ⟨life, rfl, hlife.put fun _ hj ↦ hj.unused hunused rfl⟩
  | forkParent hpc =>
    have hunused := (h.forking (.inl hpc)).2.1
    exact ⟨life, rfl, hlife.put fun _ hj ↦ hj.unused hunused hunused⟩
  | @forkDone p j hpc =>
    have hunused := (h.forking (.inr hpc)).2.1
    by_cases hj : j = k
    · subst hj
      obtain ⟨life', hnext, hof⟩ :=
        hlife.born (y := { s.proc j with state := .live }) hunused rfl rfl
      refine ⟨life', (if_pos rfl).trans hnext, ?_⟩
      change life'.Of (update s.proc j _ j)
      rwa [update_self]
    · exact ⟨life, if_neg hj, hlife.put fun heq ↦ absurd heq hj⟩
  | reparent hpc hlock => exact ⟨life, rfl, hlife.put fun _ hj ↦ hj.same rfl rfl rfl⟩
  | @exitDone p q status hpc =>
    have hlive := h.live (p := p) (by rw [hpc]; exact nofun) (by rw [hpc]; exact nofun)
    by_cases hp : p = k
    · subst hp
      obtain ⟨life', hnext, hof⟩ :=
        hlife.died (y := { s.proc p with xstate := status, state := .zombie }) hlive rfl rfl
      refine ⟨life', (if_pos rfl).trans hnext, ?_⟩
      change life'.Of (update s.proc p _ p)
      rwa [update_self]
    · exact ⟨life, if_neg hp, hlife.put fun heq ↦ absurd heq hp⟩
  | waitBad hpc hlock hzombie => exact ⟨life, rfl, hlife.put fun _ hj ↦ hj.same rfl rfl rfl⟩
  | @reap p j rest hpc hlock hzombie =>
    by_cases hj : j = k
    · subst hj
      obtain ⟨life', hnext, hof⟩ := hlife.reaped (y := .free) hzombie rfl
      refine ⟨life', (if_pos rfl).trans hnext, ?_⟩
      change life'.Of (update s.proc j _ j)
      rwa [update_self]
    · exact ⟨life, if_neg hj, hlife.put fun heq ↦ absurd heq hj⟩
  | _ => exact ⟨life, rfl, hlife⟩

/-- Every run moves each slot along its circle. -/
theorem life_run (h : Inv init s) {acts : List (Act n)}
    (hrun : Runs (State.Step init) s acts s') {k : Fin n} (hlife : life.Of (s.proc k)) :
    ∃ life', after (Life.next k) life acts = some life' ∧ life'.Of (s'.proc k) := by
  induction hrun generalizing life with
  | nil => exact ⟨life, rfl, hlife⟩
  | cons head _ ih =>
    obtain ⟨life1, hnext, hof⟩ := h.life_step head hlife
    obtain ⟨life', hafter, hof'⟩ := ih (h.step head) hof
    refine ⟨life', ?_, hof'⟩
    rw [after, hnext]
    exact hafter

/-! ### A wait that is left alone -/

/-- A scan with a zombie before it reaps a child. -/
theorem scan (h : Inv init s) {p k : Fin n} {havekids : Bool} {rest : List (Fin n)}
    (hpc : s.pc p = .waitScan havekids rest) (hk : k ∈ rest) (hparent : (s.proc k).parent = some p)
    (hzombie : (s.proc k).state = .zombie) (hlocks : ∀ j, j ≠ p → s.lock j = none) :
    ∃ j acts s', Runs (State.Step init) s acts s' ∧
      .reap p j (s.proc j).pid (s.proc j).xstate ∈ acts ∧ (s.proc j).state = .zombie ∧
      s'.proc = update s.proc j .free ∧ s'.pc p = .user ∧ ∀ i, s'.lock i = none := by
  induction rest generalizing s havekids with
  | nil => exact absurd hk List.not_mem_nil
  | cons j rest ih =>
    by_cases hj : (s.proc j).parent = some p
    · have hjp : j ≠ p := by
        rintro rfl
        exact h.other j hj
      have hsee : State.Step init s _ _ := .waitSee hpc hj
      have hpc' : (s.goto p (.waitChild j rest)).pc p = .waitChild j rest := update_self ..
      by_cases hzj : (s.proc j).state = .zombie
      · refine ⟨j, _, _, .cons hsee (.single (.reap hpc' (hlocks j hjp) hzj)),
          List.mem_cons_of_mem _ (List.mem_singleton_self _), hzj, rfl, update_self ..,
          fun i ↦ ?_⟩
        change update s.lock p none i = none
        by_cases hi : i = p
        · rw [hi, update_self]
        · rw [update_of_ne hi]
          exact hlocks i hi
      · have hkj : k ≠ j := by
          rintro rfl
          exact hzj hzombie
        have hlive : State.Step init _ _ _ := .waitLive hpc' (hlocks j hjp) hzj
        obtain ⟨i, acts, s', hrun, hreap, hfound⟩ := ih ((h.step hsee).step hlive)
          (update_self ..) ((List.mem_cons.mp hk).resolve_left hkj) hparent hzombie hlocks
        exact ⟨i, _, s', .cons hsee (.cons hlive hrun),
          List.mem_cons_of_mem _ (List.mem_cons_of_mem _ hreap), hfound⟩
    · have hkj : k ≠ j := by
        rintro rfl
        exact hj hparent
      have hnext : State.Step init s _ _ := .waitNext hpc hj
      obtain ⟨i, acts, s', hrun, hreap, hfound⟩ := ih (h.step hnext) (update_self ..)
        ((List.mem_cons.mp hk).resolve_left hkj) hparent hzombie hlocks
      exact ⟨i, _, s', .cons hnext hrun, List.mem_cons_of_mem _ hreap, hfound⟩

/-- A parent that calls `wait` often enough, and is left alone, reaps a given zombie. -/
theorem reapable (h : Inv init s) {p k : Fin n} (hpc : s.pc p = .user)
    (hparent : (s.proc k).parent = some p) (hzombie : (s.proc k).state = .zombie)
    (hlocks : ∀ j, s.lock j = none) :
    ∃ acts s', Runs (State.Step init) s acts s' ∧
      .reap p k (s.proc k).pid (s.proc k).xstate ∈ acts := by
  -- each `wait` reaps one child, so the number of zombies goes down
  induction hm : (Finset.univ.filter fun j ↦ (s.proc j).state = .zombie).card
    using Nat.strong_induction_on generalizing s with
  | h m ih =>
    have hwait : State.Step init s _ _ := .wait hpc
    have hwaiting : (s.goto p .waitLock).pc p = .waitLock := update_self ..
    have hlock : State.Step init _ _ _ := .waitLock hwaiting (hlocks p)
    obtain ⟨j, acts, s', hrun, hreap, hj, hproc, hpc', hlocks'⟩ :=
      ((h.step hwait).step hlock).scan (update_self ..) (mem_slots k) hparent hzombie
        fun i hi ↦ (update_of_ne hi ..).trans (hlocks i)
    change s'.proc = update s.proc j .free at hproc
    have hrun' : Runs (State.Step init) s _ s' := .cons hwait (.cons hlock hrun)
    by_cases hkj : k = j
    · subst hkj
      exact ⟨_, s', hrun', List.mem_cons_of_mem _ (List.mem_cons_of_mem _ hreap)⟩
    · have hk : s'.proc k = s.proc k := by rw [hproc, update_of_ne hkj]
      have hless : (Finset.univ.filter fun i ↦ (s'.proc i).state = .zombie).card < m := by
        rw [← hm]
        apply Finset.card_lt_card
        rw [Finset.ssubset_iff_of_subset]
        · refine ⟨j, Finset.mem_filter.mpr ⟨Finset.mem_univ j, hj⟩, fun hmem ↦ ?_⟩
          have hfree := (Finset.mem_filter.mp hmem).2
          rw [hproc, update_self] at hfree
          cases hfree
        · intro i hi
          have hzi := (Finset.mem_filter.mp hi).2
          refine Finset.mem_filter.mpr ⟨Finset.mem_univ i, ?_⟩
          rw [hproc] at hzi
          by_cases hij : i = j
          · rw [hij, update_self] at hzi
            cases hzi
          · rwa [update_of_ne hij] at hzi
      obtain ⟨acts', s'', hrun'', hreap'⟩ := ih _ hless
        (hrun'.invariant (Inv init) (fun _ _ _ hs hstep ↦ hs.step hstep) h) hpc'
        (by rw [hk]; exact hparent) (by rw [hk]; exact hzombie) hlocks' rfl
      rw [hk] at hreap'
      exact ⟨_, s'', hrun'.append hrun'', List.mem_append_right _ hreap'⟩

end Inv

/-- Every child is accounted for once. Each slot goes around its circle, so that each death is
followed by one `wait` at most that returns its pid and status before the slot is used again.
A process that is in use has a living parent, and it is the parent that reaps it. A `wait` that
fails leaves every slot its state, pid, parent and status, and a zombie can be reaped wherever
`wait` meets it and by a parent that is left alone. -/
theorem exit_wait_accounting {s : State n} {acts : List (Act n)}
    (hrun : Runs (State.Step init) (State.start init) acts s) :
    (∀ k, ∃ life, after (Life.next k) (Life.initial init k) acts = some life ∧
      life.Of (s.proc k)) ∧
    (∀ k, (s.proc k).state ≠ .unused → k ≠ init →
      ∃ q, (s.proc k).parent = some q ∧ (s.proc q).state = .live) ∧
    (∀ p k pid status s', State.Step init s (.reap p k pid status) s' →
      (s.proc k).parent = some p ∧ (s.proc k).state = .zombie ∧ (s.proc k).pid = pid ∧
        (s.proc k).xstate = status ∧ (s'.proc k).state = .unused) ∧
    (∀ p why s', State.Step init s (.waitFailed p why) s' → ∀ k,
      (s'.proc k).state = (s.proc k).state ∧ (s'.proc k).pid = (s.proc k).pid ∧
        (s'.proc k).parent = (s.proc k).parent ∧ (s'.proc k).xstate = (s.proc k).xstate) ∧
    (∀ p k rest, s.pc p = .waitChild k rest → s.lock k = none → (s.proc k).state = .zombie →
      ∃ s', State.Step init s (.reap p k (s.proc k).pid (s.proc k).xstate) s') ∧
    (∀ p k, s.pc p = .user → (s.proc k).parent = some p → (s.proc k).state = .zombie →
      (∀ j, s.lock j = none) → ∃ acts' s', Runs (State.Step init) s acts' s' ∧
        .reap p k (s.proc k).pid (s.proc k).xstate ∈ acts') := by
  have hinv := Inv.of_runs hrun
  refine ⟨fun k ↦ ?_, fun k hk hinit ↦ ?_, fun p k pid status s' hstep ↦ ?_,
    fun p why s' hstep k ↦ ?_, fun p k rest hpc hlock hzombie ↦ ⟨_, .reap hpc hlock hzombie⟩,
    fun p k hpc hparent hzombie hlocks ↦ hinv.reapable hpc hparent hzombie hlocks⟩
  · refine (Inv.start init).life_run hrun ?_
    by_cases hk : k = init
    · rw [Life.initial, if_pos hk]
      simp only [State.start, hk, update_self]
      exact ⟨rfl, rfl⟩
    · rw [Life.initial, if_neg hk]
      simp only [State.start, update_of_ne hk]
      rfl
  · cases hparent : (s.proc k).parent with
    | none => exact absurd hparent (hinv.child k hk hinit)
    | some q => exact ⟨q, rfl, hinv.parent k q hparent⟩
  · cases hstep with
    | reap hpc hlock hzombie =>
      refine ⟨(hinv.waiting hpc hlock hzombie).2.1, hzombie, rfl, rfl, ?_⟩
      change (update s.proc k .free k).state = .unused
      rw [update_self]
      rfl
  · cases hstep with
    | @waitBad _ j _ hpc hlock hzombie =>
      by_cases hj : k = j
      · subst hj
        simp only [State.goto, State.setLock, State.setProc, update_self, and_self]
      · simp only [State.goto, State.setLock, State.setProc, update_of_ne hj, and_self]
    | waitNoChildren hpc => exact ⟨rfl, rfl, rfl, rfl⟩
    | waitInterrupted hpc hlock => exact ⟨rfl, rfl, rfl, rfl⟩

/-- A child exits with status 7, a `wait` with a bad address fails, and the zombie is still
there. -/
theorem exit_wait_accounting_bad_address :
    ∃ (acts : List (Act 2)) (s : State 2), Runs (State.Step 0) (State.start 0) acts s ∧
      acts.getLast? = some (.waitFailed 0 .copyout) ∧
      after (Life.next 1) .free acts = some (.dead 2 7) ∧
      ∃ acts' s', Runs (State.Step 0) s acts' s' ∧ .reap 0 1 2 7 ∈ acts' := by
  have hbad : ∃ s : State 2, Runs (State.Step 0) (State.start 0)
      [.quiet 0, .quiet 0, .quiet 0, .quiet 0, .born 0 1 2, .quiet 1, .quiet 1, .quiet 1, .quiet 1,
        .quiet 1, .quiet 1, .died 1 2 7, .quiet 1, .quiet 0, .quiet 0, .quiet 0, .quiet 0,
        .waitFailed 0 .copyout] s ∧
      s.pc 0 = .user ∧ (s.proc 1).parent = some 0 ∧ (s.proc 1).state = .zombie ∧
      (s.proc 1).pid = 2 ∧ (s.proc 1).xstate = 7 ∧ ∀ j, s.lock j = none :=
    ⟨_, .cons (.fork rfl) (.cons (.forkNext rfl rfl nofun) (.cons (.forkFound rfl rfl rfl)
      (.cons (.forkParent rfl) (.cons (.forkDone rfl) (.cons (.exit 7 rfl nofun)
      (.cons (.exitRead rfl rfl rfl) (.cons (.exitParent rfl rfl) (.cons (.exitSelf rfl rfl)
      (.cons (.reparentNext rfl nofun) (.cons (.reparentNext rfl nofun) (.cons (.exitDone rfl)
      (.cons (.exitSched rfl) (.cons (.wait rfl) (.cons (.waitLock rfl rfl)
      (.cons (.waitNext rfl nofun) (.cons (.waitSee rfl rfl)
      (.single (.waitBad rfl rfl rfl)))))))))))))))))), rfl, rfl, rfl, rfl, rfl, by decide⟩
  obtain ⟨s, hrun, hpc, hparent, hzombie, hpid, hxstate, hlocks⟩ := hbad
  obtain ⟨_, _, _, _, _, hreap⟩ := exit_wait_accounting hrun
  obtain ⟨acts', s', hrun', hmem⟩ := hreap 0 1 hpc hparent hzombie hlocks
  rw [hpid, hxstate] at hmem
  exact ⟨_, s, hrun, rfl, by decide, acts', s', hrun', hmem⟩

end Xv6K210.Wait
