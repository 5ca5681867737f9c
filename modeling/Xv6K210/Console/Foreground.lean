import Xv6K210.Base.Runs

/-!
# The foreground process group

Source `kernel/devsw/console.c:105–147`, `kernel/proc/signal.c:187–203` and
`kernel/proc/proc.c:656–665`. A call that sets the foreground group looks for groups in the table of
the processes slot after slot, reads the owner of the terminal in one critical section and decides
in another; between its steps those of other calls are taken, and processes come, go and change
their groups.
-/

namespace Xv6K210.Console

open Base Function

/-- `NPROC`. -/
def nproc : Nat := 64

/-- The groups that `cons` names, 0 for none. -/
structure Tty where
  foreground : Nat
  owner : Nat
  deriving DecidableEq, Repr

/-- The second critical section of `console_set_foreground_pgrp`, with the owner that was seen in
the first and whether it was found to exist. -/
def setForeground (pgid caller seen : Nat) (exists' : Bool) (t : Tty) : Tty × Bool :=
  let t := if t.owner = seen ∧ !exists' then ⟨0, 0⟩ else t
  let t := if t.owner = 0 ∧ t.foreground = 0 then { t with owner := caller } else t
  if t.owner ≠ caller ∧ t.foreground ≠ pgid then
    (t, false)
  else
    let t := { t with foreground := pgid }
    (if pgid = 0 ∧ t.owner = caller then { t with owner := 0 } else t, true)

/-- Where a process is in `console_set_foreground_pgrp`. -/
inductive Pc where
  | out
  /-- in `signal_pgrp_exists(pgid)`, before a slot -/
  | find (pgid slot : Nat)
  /-- before `proc_getpgrp` -/
  | ident (pgid : Nat)
  /-- before the first section -/
  | look (pgid caller : Nat)
  /-- in `signal_pgrp_exists(owner_pgid)`, before a slot -/
  | probe (pgid caller owner slot : Nat)
  /-- before the second section -/
  | decide (pgid caller owner : Nat) (exists' : Bool)
  deriving DecidableEq, Repr

/-- The terminal, the groups of the slots, 0 for an unused one, and where the processes are. -/
structure System where
  tty : Tty
  group : Nat → Nat
  pc : Nat → Pc

/-- `consoleinit`, with no process in a call. -/
def System.init (group : Nat → Nat) : System := ⟨⟨0, 0⟩, group, fun _ ↦ .out⟩

/-- A step. -/
inductive Act where
  /-- a process calls for a group -/
  | call (q pgid : Nat)
  /-- a process goes on in its call -/
  | turn (q : Nat)
  /-- a slot is taken, freed or changes its group -/
  | regroup (q g : Nat)
  deriving DecidableEq, Repr

def System.goto (s : System) (q : Nat) (pc : Pc) : System :=
  { s with pc := update s.pc q pc }

/-- The step changes the group of a slot. -/
def Act.moves (m : Nat) : Act → Bool
  | .regroup q _ => q = m
  | _ => false

/-- What holds of where every process is still does when one of them goes on. -/
theorem System.goto_all {s : System} {P : Nat → Pc → Prop} (h : ∀ q, P q (s.pc q)) {q : Nat}
    {pc : Pc}
    (hq : P q pc) (q' : Nat) : P q' ((s.goto q pc).pc q') := by
  change P q' (update s.pc q pc q')
  by_cases heq : q' = q
  · rwa [heq, update_self]
  · rw [update_of_ne heq]
    exact h q'

/-- The next step of a call. -/
def System.turn (s : System) (q : Nat) : Option System :=
  match s.pc q with
  | .out => none
  | .find pgid slot =>
    if slot < nproc then
      if s.group slot = pgid then some (s.goto q (.ident pgid))
      else some (s.goto q (.find pgid (slot + 1)))
    else some (s.goto q .out)
  | .ident pgid => some (s.goto q (.look pgid (s.group q)))
  | .look pgid caller =>
    some (s.goto q (if 0 < s.tty.owner then .probe pgid caller s.tty.owner 0
      else .decide pgid caller s.tty.owner false))
  | .probe pgid caller owner slot =>
    if slot < nproc then
      if s.group slot = owner then some (s.goto q (.decide pgid caller owner true))
      else some (s.goto q (.probe pgid caller owner (slot + 1)))
    else some (s.goto q (.decide pgid caller owner false))
  | .decide pgid caller owner exists' =>
    some ({ s with tty := (setForeground pgid caller owner exists' s.tty).1 }.goto q .out)

/-- The effect of a step; a slot in a call is not freed, and a process has a group. -/
def System.step (s : System) : Act → Option System
  | .call q pgid =>
    if s.pc q = .out ∧ s.group q ≠ 0 then
      some (s.goto q (if pgid = 0 then .ident 0 else .find pgid 0))
    else none
  | .turn q => s.turn q
  | .regroup q g =>
    if g ≠ 0 ∨ s.pc q = .out then some { s with group := update s.group q g } else none

def Step (s : System) (a : Act) (t : System) : Prop := s.step a = some t

/-- A step that computes is a step. -/
theorem step_of_some (s : System) (a : Act) (t : System) (h : s.step a = some t) : Step s a t := h

/-! ### A foreground group has an owner -/

/-- The group that the caller had. -/
def Pc.caller : Pc → Option Nat
  | .look _ caller | .probe _ caller _ _ | .decide _ caller _ _ => some caller
  | _ => none

/-- A turn goes on in the call, with the group of the caller once it is known, or decides. -/
theorem System.turn_cases {s t : System} {q : Nat} (h : s.turn q = some t) :
    s.pc q ≠ .out ∧ ((∃ pc, t = s.goto q pc ∧
      (pc.caller = none ∨ pc.caller = (s.pc q).caller ∨ pc.caller = some (s.group q))) ∨
    ∃ pgid caller seen exists', s.pc q = .decide pgid caller seen exists' ∧
      t = { s with tty := (setForeground pgid caller seen exists' s.tty).1 }.goto q .out) := by
  unfold System.turn at h
  cases hpc : s.pc q with
  | out =>
    rw [hpc] at h
    cases h
  | find pgid slot =>
    rw [hpc] at h
    dsimp only at h
    refine ⟨by rintro ⟨⟩, .inl ?_⟩
    split_ifs at h <;> cases h <;> exact ⟨_, rfl, .inl rfl⟩
  | ident pgid =>
    rw [hpc] at h
    cases h
    exact ⟨by rintro ⟨⟩, .inl ⟨_, rfl, .inr (.inr rfl)⟩⟩
  | look pgid caller =>
    rw [hpc] at h
    cases h
    refine ⟨by rintro ⟨⟩, .inl ⟨_, rfl, .inr (.inl ?_)⟩⟩
    split_ifs <;> rfl
  | probe pgid caller owner slot =>
    rw [hpc] at h
    dsimp only at h
    refine ⟨by rintro ⟨⟩, .inl ?_⟩
    split_ifs at h <;> cases h <;> exact ⟨_, rfl, .inr (.inl rfl)⟩
  | decide pgid caller owner exists' =>
    rw [hpc] at h
    cases h
    exact ⟨by rintro ⟨⟩, .inr ⟨_, _, _, _, rfl, rfl⟩⟩

/-- There is an owner when there is a foreground group; the processes in a call have a group, and
had one. -/
structure System.Owned (s : System) : Prop where
  iff : s.tty.owner = 0 ↔ s.tty.foreground = 0
  group : ∀ q, s.pc q ≠ .out → s.group q ≠ 0
  caller : ∀ q, (s.pc q).caller ≠ some 0

/-- A decision for a caller that has a group leaves no foreground group without an owner. -/
theorem setForeground_owned {pgid caller seen : Nat} {exists' : Bool} {t : Tty}
    (h : t.owner = 0 ↔ t.foreground = 0) (hcaller : caller ≠ 0) :
    (setForeground pgid caller seen exists' t).1.owner = 0 ↔
      (setForeground pgid caller seen exists' t).1.foreground = 0 := by
  obtain ⟨foreground, owner⟩ := t
  unfold setForeground
  dsimp only at *
  split_ifs <;> grind

/-- A process goes on to another section. -/
theorem System.Owned.goto {s : System} (h : s.Owned) {q : Nat} {pc : Pc}
    (hgroup : pc ≠ .out → s.group q ≠ 0) (hcaller : pc.caller ≠ some 0) : (s.goto q pc).Owned := by
  exact ⟨h.iff, System.goto_all (P := fun q pc ↦ pc ≠ .out → s.group q ≠ 0) h.group hgroup,
    System.goto_all (P := fun _ pc ↦ pc.caller ≠ some 0) h.caller hcaller⟩

/-- A step keeps the terminal owned. -/
theorem System.Owned.step {s t : System} {a : Act} (h : s.Owned) (hstep : Step s a t) :
    t.Owned := by
  cases a with
  | call q pgid =>
    unfold Step System.step at hstep
    dsimp only at hstep
    split_ifs at hstep with hcall hzero
    · cases hstep
      exact h.goto (fun _ ↦ hcall.2) (by rintro ⟨⟩)
    · cases hstep
      exact h.goto (fun _ ↦ hcall.2) (by rintro ⟨⟩)
  | turn q =>
    obtain ⟨hin, ⟨pc, rfl, hpc⟩ | ⟨pgid, caller, seen, exists', hpc, rfl⟩⟩ :=
      System.turn_cases hstep
    · refine h.goto (fun _ ↦ h.group q hin) ?_
      rcases hpc with hpc | hpc | hpc <;> rw [hpc]
      · rintro ⟨⟩
      · exact h.caller q
      · exact fun heq ↦ h.group q hin (Option.some.inj heq)
    · have hcaller : caller ≠ 0 := by
        rintro rfl
        exact h.caller q (by rw [hpc]; rfl)
      have hset : { s with tty := (setForeground pgid caller seen exists' s.tty).1 }.Owned :=
        ⟨setForeground_owned h.iff hcaller, h.group, h.caller⟩
      exact hset.goto (fun hout ↦ absurd rfl hout) (by rintro ⟨⟩)
  | regroup q g =>
    unfold Step System.step at hstep
    dsimp only at hstep
    split_ifs at hstep with hg
    cases hstep
    refine ⟨h.iff, fun q' hq' ↦ ?_, h.caller⟩
    dsimp only at hq' ⊢
    by_cases heq : q' = q
    · rw [heq, update_self]
      rw [heq] at hq'
      exact hg.resolve_right hq'
    · rw [update_of_ne heq]
      exact h.group q' hq'

/-- In every state that is reached from the start, however the calls are interleaved, the terminal
has an owner when it has a foreground group, and only then. -/
theorem foreground_has_owner {group : Nat → Nat} {as : List Act} {s : System}
    (h : Runs Step (System.init group) as s) : s.tty.owner = 0 ↔ s.tty.foreground = 0 := by
  have hinit : (System.init group).Owned :=
    ⟨Iff.rfl, fun q hq ↦ absurd rfl hq, fun q ↦ by rintro ⟨⟩⟩
  exact (h.invariant System.Owned (fun _ _ _ ↦ System.Owned.step) hinit).iff

/-- A shell brings its job, group 2, into the foreground. -/
theorem foreground_has_owner_small : ∃ as s,
    Runs Step (System.init fun q ↦ if q < 3 then q else 0) as s ∧ s.tty.foreground = 2 ∧
    (s.tty.owner = 0 ↔ s.tty.foreground = 0) := by
  obtain ⟨s, hrun, hcheck⟩ := exists_runs step_of_some
    (System.init fun q ↦ if q < 3 then q else 0) (.call 1 2 :: List.replicate 6 (.turn 1))
    (fun s ↦ s.tty.foreground = 2) (by decide)
  exact ⟨_, s, hrun, of_decide_eq_true hcheck, foreground_has_owner hrun⟩

/-! ### The owner keeps the terminal -/

/-- The owner that a call has seen. -/
def Pc.seen : Pc → Option Nat
  | .probe _ _ owner _ | .decide _ _ owner _ => some owner
  | _ => none

/-- The call has not gone past the slot of `m` looking for its group `o`, and has not missed it. -/
def Pc.Fair (o m : Nat) : Pc → Prop
  | .probe _ _ owner slot => owner = o → slot ≤ m
  | .decide _ _ owner exists' => owner = o → exists' = true
  | _ => True

private theorem Pc.fair_of_seen {o m : Nat} {pc : Pc} (h : pc.seen ≠ some o) : pc.Fair o m := by
  cases pc with
  | probe pgid caller owner slot => exact fun heq ↦ absurd (congrArg some heq) h
  | decide pgid caller owner exists' => exact fun heq ↦ absurd (congrArg some heq) h
  | _ => trivial

/-- The process `m` is in the group `o`, and no call takes the group for dead. -/
structure System.Watched (o m : Nat) (s : System) : Prop where
  member : s.group m = o
  fair : ∀ q, (s.pc q).Fair o m

/-- A process goes on to a section that is fair. -/
theorem System.Watched.goto {s : System} {o m : Nat} (h : s.Watched o m) {q : Nat} {pc : Pc}
    (hpc : pc.Fair o m) : (s.goto q pc).Watched o m :=
  ⟨h.member, System.goto_all (P := fun _ pc ↦ pc.Fair o m) h.fair hpc⟩

/-- A turn keeps the owner watched. -/
theorem System.Watched.turn {s t : System} {o m q : Nat} (ho : o ≠ 0) (hm : m < nproc)
    (h : s.Watched o m)
    (hstep : s.turn q = some t) : t.Watched o m := by
  have hfair := h.fair q
  unfold System.turn at hstep
  cases hpc : s.pc q with
  | out =>
    rw [hpc] at hstep
    cases hstep
  | find pgid slot =>
    rw [hpc] at hstep
    dsimp only at hstep
    split_ifs at hstep <;> cases hstep <;> exact h.goto trivial
  | ident pgid =>
    rw [hpc] at hstep
    cases hstep
    exact h.goto trivial
  | look pgid caller =>
    rw [hpc] at hstep
    cases hstep
    refine h.goto ?_
    split_ifs with howner
    · exact fun _ ↦ Nat.zero_le m
    · intro heq
      omega
  | probe pgid caller owner slot =>
    rw [hpc] at hstep hfair
    dsimp only at hstep
    split_ifs at hstep with hslot hfound <;> cases hstep
    · exact h.goto fun _ ↦ rfl
    · -- the process `m` is found, at the latest in its slot
      refine h.goto fun howner ↦ Nat.lt_of_le_of_ne (hfair howner) ?_
      rintro rfl
      exact hfound (h.member.trans howner.symm)
    · exact h.goto fun howner ↦ absurd (hfair howner) (by omega)
  | decide pgid caller owner exists' =>
    rw [hpc] at hstep
    cases hstep
    have hset : { s with tty := (setForeground pgid caller owner exists' s.tty).1 }.Watched o m :=
      ⟨h.member, h.fair⟩
    exact hset.goto trivial

/-- A step in which the member stays keeps the owner watched. -/
theorem System.Watched.step {s t : System} {o m : Nat} {a : Act} (ho : o ≠ 0) (hm : m < nproc)
    (hstays : a.moves m = false) (h : s.Watched o m) (hstep : Step s a t) : t.Watched o m := by
  cases a with
  | call q pgid =>
    unfold Step System.step at hstep
    dsimp only at hstep
    split_ifs at hstep <;> cases hstep <;> exact h.goto trivial
  | turn q => exact h.turn ho hm hstep
  | regroup q g =>
    have hqm : m ≠ q := by
      rintro rfl
      simp [Act.moves] at hstays
    unfold Step System.step at hstep
    dsimp only at hstep
    split_ifs at hstep
    cases hstep
    exact ⟨(update_of_ne hqm _ _).trans h.member, h.fair⟩

/-- A caller of another group that does not take the owner for dead changes nothing. -/
theorem setForeground_foreign {pgid caller seen : Nat} {exists' : Bool} {t : Tty}
    (howner : t.owner ≠ 0) (hcaller : caller ≠ t.owner) (hseen : seen = t.owner → exists' = true) :
    (setForeground pgid caller seen exists' t).1 = t := by
  have hdead : ¬ (t.owner = seen ∧ (!exists') = true) := by
    rintro ⟨heq, hdead⟩
    rw [hseen heq.symm] at hdead
    cases hdead
  have hfree : ¬ (t.owner = 0 ∧ t.foreground = 0) := fun h ↦ howner h.1
  unfold setForeground
  dsimp only
  rw [if_neg hdead, if_neg hfree]
  split_ifs with hother hrelease
  · rfl
  · exact absurd hrelease.2.symm hcaller
  · rw [← Decidable.byContradiction fun hne ↦ hother ⟨hcaller.symm, hne⟩]

/-- As long as one process stays in the group that owns the terminal, only a call that a member of
the group has made changes the owner or the foreground group, however the calls are interleaved with
each other and with processes that come, go and change their groups. A call that was under way
before and had already seen this owner is left out: what it found of the group may be out of
date. -/
theorem only_owner_sets {o m : Nat} (ho : o ≠ 0) (hm : m < nproc) {s t u : System} {as : List Act}
    {a : Act} (hmember : s.group m = o) (hseen : ∀ q, (s.pc q).seen ≠ some o)
    (h : Runs Step s as t) (hstays : ∀ a ∈ as, a.moves m = false) (hstep : Step t a u)
    (howner : t.tty.owner = o) (hset : u.tty ≠ t.tty) :
    ∃ q pgid seen exists', a = .turn q ∧ t.pc q = .decide pgid o seen exists' := by
  have hwatched : t.Watched o m :=
    h.invariant_of (System.Watched o m) (fun _ _ _ ↦ System.Watched.step ho hm) hstays
      ⟨hmember, fun q ↦ Pc.fair_of_seen (hseen q)⟩
  cases a with
  | call q pgid =>
    unfold Step System.step at hstep
    dsimp only at hstep
    split_ifs at hstep <;> cases hstep <;> exact absurd rfl hset
  | regroup q g =>
    unfold Step System.step at hstep
    dsimp only at hstep
    split_ifs at hstep
    cases hstep
    exact absurd rfl hset
  | turn q =>
    obtain ⟨-, ⟨pc, rfl, -⟩ | ⟨pgid, caller, seen, exists', hpc, rfl⟩⟩ := System.turn_cases hstep
    · exact absurd rfl hset
    · refine ⟨q, pgid, seen, exists', rfl, ?_⟩
      have hfair := hwatched.fair q
      rw [hpc] at hfair ⊢
      by_contra hne
      apply hset
      refine setForeground_foreign (howner.trans_ne ho) ?_ fun heq ↦ hfair (heq.trans howner)
      rintro rfl
      exact hne (by rw [howner])

/-- A shell, alone in group 1, brings its job, group 2, into the foreground. -/
theorem only_owner_sets_small : ∃ s t : System, ∃ as, Runs Step s as t ∧ t.tty = ⟨1, 1⟩ ∧
    (∃ u, Step t (.turn 1) u ∧ u.tty = ⟨2, 1⟩) ∧
    ∃ q pgid seen exists', Act.turn 1 = .turn q ∧ t.pc q = .decide pgid 1 seen exists' := by
  obtain ⟨t, hrun, hcheck⟩ := exists_runs step_of_some
    (System.init fun q ↦ if q < 3 then q else 0)
    (Act.call 1 1 :: List.replicate 5 (Act.turn 1) ++ Act.call 1 2 :: List.replicate 7 (Act.turn 1))
    (fun t ↦ t.tty = ⟨1, 1⟩ ∧ (t.step (.turn 1)).any fun u ↦ u.tty = ⟨2, 1⟩) (by decide)
  obtain ⟨htty, hnext⟩ := of_decide_eq_true hcheck
  obtain ⟨u, hstep, hu⟩ := (Option.any_eq_true _ _).mp hnext
  have hset : u.tty = ⟨2, 1⟩ := of_decide_eq_true hu
  refine ⟨_, t, _, hrun, htty, ⟨u, hstep, hset⟩, ?_⟩
  exact only_owner_sets (o := 1) (m := 1) (by decide) (by decide) rfl (fun q ↦ by rintro ⟨⟩) hrun
    (by decide) hstep (by rw [htty]) (by rw [hset, htty]; decide)

end Xv6K210.Console
