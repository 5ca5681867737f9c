import Xv6K210.Vm.Accounts

/-!
# The memory of the other processes

What a call leaves as it was: the pages of the processes that do not take part in it,
and what they load from there.
-/

namespace Xv6K210.Vm

open Xv6K210.Base Prog

variable {P O F : Type} {w : World P O F}

/-! ### What is told -/

/-- What the user pages in `S` hold. -/
def World.told (w : World P O F) (S : P → Nat → Bool) : Owner P O → Option (Nat → UInt8)
  | .user q n => if S q n then (userPage (w.leaf (.user q)) n).map w.mem else none
  | _ => none

/-- No object is owned by an observed owner. -/
theorem World.told_objects (w : World P O F) (S : P → Nat → Bool) :
    NoObjects (w.told S : Owner P O → _) := by
  intro y b hy
  cases y with
  | user q n => cases hy
  | _ => rfl

private theorem World.told_eq_some {S : P → Nat → Bool} {x : Owner P O} {m : Nat → UInt8}
    (h : w.told S x = some m) :
    ∃ q n e, x = .user q n ∧ S q n = true ∧ n * pgsize < maxuva ∧
      w.leaf (.user q) n = some e ∧ w.mem e.pa = m := by
  cases x with
  | user q n =>
    unfold World.told userPage at h
    dsimp only at h
    split_ifs at h with hS hn
    · obtain ⟨pa, hpa, rfl⟩ := Option.map_eq_some_iff.mp h
      obtain ⟨e, he, rfl⟩ := Option.map_eq_some_iff.mp hpa
      exact ⟨q, n, e, rfl, hS, hn, he, rfl⟩
    · cases h
  | _ => cases h

/-- The pages hold what they hold. -/
theorem Tally.told {ct : Owner P O → Option (Nat → UInt8)} {fr : P → Option Nat} {hs : List Nat}
    (h : Tally ct fr hs w) (S : P → Nat → Bool) : Tally (w.told S) fr hs w := by
  refine h.known_again fun x m hx ↦ ?_
  obtain ⟨q, n, e, rfl, -, hn, he, hm⟩ := World.told_eq_some hx
  refine ⟨e.pa, ?_, hm⟩
  change userPage (w.leaf (.user q)) n = some e.pa
  rw [userPage, if_pos hn, he]
  rfl

/-- What the entry of a page tells a load. -/
def World.reading (w : World P O F) (q : P) (n : Nat) : Option (Nat × Bool) :=
  (w.leaf (.user q) n).map fun e ↦ (e.pa, e.perm.r)

/-- A load by what the process reads. -/
theorem load_eq (w : World P O F) (q : P) (va : Nat) : load w (.user q) va =
    (w.reading q (va / pgsize)).bind fun x ↦
      if x.2 then some (w.mem x.1 (va % pgsize)) else none := by
  unfold load World.reading
  change _ = ((w.pt (.user q)).leaf[va / pgsize]?.map _).bind _
  cases (w.pt (.user q)).leaf[va / pgsize]? <;> rfl

/-- A page that is told and still mapped is loaded as before. -/
theorem Tally.load_eq {w' : World P O F} {S : P → Nat → Bool} {fr : P → Option Nat}
    {hs : List Nat} (h : Tally (w.told S) fr hs w') {q : P} {va : Nat} (hva : va < maxuva)
    (hS : S q (va / pgsize) = true)
    (hread : w'.reading q (va / pgsize) = w.reading q (va / pgsize)) :
    load w' (.user q) va = load w (.user q) va := by
  have hn : va / pgsize * pgsize < maxuva := (Nat.div_mul_le_self va pgsize).trans_lt hva
  rw [Vm.load_eq, Vm.load_eq, hread]
  cases he : w.leaf (.user q) (va / pgsize) with
  | none => rw [World.reading, he]; rfl
  | some e =>
    have hread' : w.reading q (va / pgsize) = some (e.pa, e.perm.r) := by
      rw [World.reading, he]
      rfl
    have htold : w.told S (.user q (va / pgsize) : Owner P O) = some (w.mem e.pa) := by
      unfold World.told userPage
      dsimp only
      rw [if_pos hS, if_pos hn, he]
      rfl
    obtain ⟨pa, howns, hmem⟩ := h.kept _ _ htold
    have hpa : pa = e.pa := by
      rw [hread', World.reading] at hread
      obtain ⟨e', he', heq⟩ := Option.map_eq_some_iff.mp hread
      change userPage (w'.leaf (.user q)) _ = some pa at howns
      rw [userPage, if_pos hn, he'] at howns
      exact (Option.some.inj howns).symm.trans (Prod.mk.inj heq).1
    rw [hread', Option.bind_some, Option.bind_some, ← hpa, hmem, hpa]

/-! ### The processes of a call -/

/-- The processes whose memory a call is about. -/
def Call.actors (b : Boot P) : Call P F → List P
  | .userinit _ => [b.init]
  | .openFile _ _ _ _ | .dup _ _ _ | .close _ _ _ => []
  | .mmap p _ _ _ _ _ _ | .munmap p _ _ | .sbrk p _ | .fault p _ _ | .store p _ _
  | .copyout p _ _ | .exec p _ | .exit p => [p]
  | .fork p c | .wait p c _ _ => [p, c]

/-- The table and the address of a store. -/
def Call.stored : Call P F → Option (Tbl P × Nat)
  | .store p va _ => some (.user p, va)
  | .copyout p va _ => some (.kern p, va)
  | _ => none

/-- A quiet step keeps every process. -/
theorem Quiet.same {w' : World P O F} (h : Quiet w w') (q : P) : Same q w w' :=
  h.still.same (by rw [h.core.proc])

section

variable [DecidableEq P]

private theorem setProc_same (w : World P O F) (p : P) {f : Proc P O F → Proc P O F}
    (hf : ∀ x, (f x).state = x.state ∧ (f x).sz = x.sz ∧ (f x).vmas = x.vmas) :
    Ensures (setProc p f) w fun _ w' ↦ ∀ q, Same q w w' := by
  refine ((setProc_still w p fun x ↦ (hf x).2).and (ensures_modify.mpr ?_ :
    Ensures (setProc p f) w fun _ w' ↦ ∀ q, (w'.proc q).state = (w.proc q).state)).mono ?_
  · intro q
    dsimp only
    by_cases hq : q = p
    · rw [hq, Function.update_self, (hf _).1]
    · rw [Function.update_of_ne hq]
  · rintro _ w' ⟨hstill, hstate⟩ q
    exact hstill.same (hstate q)

variable [Fintype P] (hP : Fintype.card P ≤ nproc) [Fintype O] [DecidableEq O] [DecidableEq F]

omit [Fintype P] [Fintype O] in
private theorem sysExec_same (b : Boot P) {p : P} (halive : Alive w p) (img : Image) :
    Ensures (sysExec b p img) w fun _ w' ↦ ∀ q, q ≠ p → Same q w w' := by
  unfold sysExec
  apply (argvPages_quiet _ _ w).bind
  rintro ⟨fetched, pas⟩ w1 hq1
  dsimp only
  rw [ensures_ite]
  constructor
  · intro _
    have halive1 := halive.same (hq1.same p)
    apply (exec_spec b img halive1.space halive1.user halive1.kern).bind
    rintro r w2 ⟨hself, -⟩
    simp only [ensures_bind, ensures_pure]
    apply (kfreePages_quiet w2 pas).mono
    intro _ w3 hq3 q hq
    exact ((hq1.same q).trans (hself.same hq)).trans (hq3.same q)
  · intro _
    simp only [ensures_bind, ensures_pure]
    apply (kfreePages_quiet w1 pas).mono
    intro _ w2 hq2 q _
    exact (hq1.same q).trans (hq2.same q)

include hP

/-- A call is about the memory of its processes only. -/
theorem runCall_same {b : Boot P} {call : Call P F} (h : Accounts untold b w) (hs : Spaces w)
    (hb : Books w) (hen : Enabled b w call) :
    Ensures (runCall b call) w fun _ w' ↦ ∀ q, q ∉ call.actors b → Same q w w' := by
  have hown : ∀ {α : Type} {p : P} {x : Kern P O F α},
      Ensures x w (fun _ w' ↦ Own p w w' ∧ SpaceAt w' p) →
      Ensures (do let _ ← x) w fun _ w' ↦ ∀ q, q ∉ [p] → Same q w w' := by
    intro α p x hx
    simp only [ensures_bind, ensures_pure]
    apply hx.mono
    rintro _ w' ⟨hown, -⟩ q hq
    exact hown.same (by simpa using hq)
  have hfile : ∀ {x : Kern P O F Unit} {p : P} (fd : Fin nofile) (y : Option F),
      (∀ w1 : World P O F, Ensures x w1 fun _ w' ↦ ∀ q, Same q w1 w') →
      Ensures (setProc p (fun q ↦ { q with ofile := Function.update q.ofile fd y }) >>= fun _ ↦ x) w
        fun _ w' ↦ ∀ q, q ∉ ([] : List P) → Same q w w' := by
    intro x p fd y hx
    refine (setProc_same w p ?_).bind ?_
    · exact fun _ ↦ ⟨rfl, rfl, rfl⟩
    intro _ w1 h1
    apply (hx w1).mono
    intro _ w2 h2 q _
    exact (h1 q).trans (h2 q)
  cases call with
  | userinit code =>
    apply (userinit_spec b code hen).mono
    rintro _ w' ⟨honly, -⟩ q hq
    exact honly.same (by simpa [Call.actors] using hq)
  | openFile p fd f x =>
    change Ensures (openFile p fd f x) w _
    unfold openFile
    rw [ensures_modify]
    intro q _
    by_cases hq : q = p
    · subst hq
      exact ⟨by simp, by simp, by simp, rfl, rfl, id, id⟩
    · exact ⟨by simp [hq], by simp [hq], by simp [hq], rfl, rfl, id, id⟩
  | dup p f fd =>
    exact hfile fd (some f) fun w1 ↦ (filedup_tab w1 f).mono fun _ _ h' q ↦
      h'.still.same (by rw [h'.proc])
  | close p fd f =>
    exact hfile fd none fun w1 ↦ (fileclose_tab w1 f).mono fun _ _ h' q ↦
      h'.still.same (by rw [h'.proc])
  | mmap p addr length prot flags fd offset =>
    exact hown (sysMmap_spec addr length prot flags fd offset (hs p hen).space)
  | munmap p addr length => exact hown (sysMunmap_spec addr length (hs p hen).space)
  | sbrk p n => exact hown (sysSbrk_spec n (hs p hen).space)
  | fault p address access => exact hown (vmResolveFault_own address access (hs p hen).space)
  | store p va x => exact (store_quiet w _ va x).mono fun _ _ h' q _ ↦ h'.same q
  | copyout p va x => exact (store_quiet w _ va x).mono fun _ _ h' q _ ↦ h'.same q
  | fork p c =>
    obtain ⟨hlive, hunused⟩ := hen
    have hpc : p ≠ c := by
      rintro rfl
      rw [hunused] at hlive
      cases hlive
    change Ensures (do let _ ← fork b p c) w _
    simp only [ensures_bind, ensures_pure]
    apply (fork_spec b hpc hunused (hs p hlive).space).mono
    rintro ok w' ⟨hpair, -⟩ q hq
    have hboth : q ≠ p ∧ q ≠ c := by simpa [Call.actors] using hq
    exact hpair.same hboth.1 hboth.2
  | exec p img =>
    change Ensures (do let _ ← sysExec b p img) w _
    simp only [ensures_bind, ensures_pure]
    apply (sysExec_same b (hs p hen) img).mono
    intro _ w' h' q hq
    exact h' q (by simpa [Call.actors] using hq)
  | exit p =>
    apply (exit_spec b w p).mono
    rintro _ w' ⟨-, h'⟩ q hq
    exact h' q (by simpa [Call.actors] using hq)
  | wait p c touched stored =>
    obtain ⟨hlive, hzombie, -⟩ := hen
    have hpc : p ≠ c := by
      rintro rfl
      rw [hzombie] at hlive
      cases hlive
    have hset := h.settled c
    change Ensures (do let _ ← waitFor b p c touched stored) w _
    simp only [ensures_bind, ensures_pure]
    apply (waitFor_tally hP b hpc touched stored h.tally (hs p hlive) hset.size hset.maps
      hset.stackless (hb.idle c (by rw [hzombie]; rintro ⟨⟩)).vmas (fun _ _ _ ↦ rfl)
      fun _ _ ↦ rfl).mono
    rintro _ w' ⟨-, -, -, hproc, hthere, hleaf⟩ q hq
    obtain ⟨hqp, hqc⟩ : q ≠ p ∧ q ≠ c := by simpa [Call.actors] using hq
    have huser : w'.there (.user q) = w.there (.user q) :=
      hthere _ (by simpa using hqc) (by simp)
    have hkern : w'.there (.kern q) = w.there (.kern q) :=
      hthere _ (by simp) (by simpa using hqc)
    exact ⟨by rw [hproc q hqc], by rw [hproc q hqc], by rw [hproc q hqc],
      hleaf _ (by simpa using hqp) (by simp) (by simpa using hqc) (by simp),
      hleaf _ (by simp) (by simpa using hqp) (by simp) (by simpa using hqc),
      fun hthere' ↦ by rw [huser, hthere'], fun hthere' ↦ by rw [hkern, hthere']⟩

end

/-- These pages, each with an object. -/
def smallPages (pages : List Nat) : List (Option (Nat × Fin 64)) :=
  pages.map fun i ↦ some (i, ⟨i % 64, Nat.mod_lt i (by decide)⟩)

end Xv6K210.Vm
