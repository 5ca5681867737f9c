import Xv6K210.Vm.Exec

/-!
# Address spaces over whole runs

Every call keeps the address space of every living process in order, so it is in
order after every run from the boot.
-/

namespace Xv6K210.Vm

open Xv6K210.Base Prog

variable {P O F : Type}

/-- A process with its two tables and its address space in order. -/
structure Alive (w : World P O F) (p : P) : Prop where
  user : w.there (.user p)
  kern : w.there (.kern p)
  space : SpaceAt w p

/-- Every living process has its address space. -/
def Spaces (w : World P O F) : Prop := ∀ p, (w.proc p).state = .live → Alive w p

/-- The memory and the state of process `q` are the same. -/
structure Same (q : P) (w w' : World P O F) : Prop where
  state : (w'.proc q).state = (w.proc q).state
  sz : (w'.proc q).sz = (w.proc q).sz
  vmas : (w'.proc q).vmas = (w.proc q).vmas
  user : w'.leaf (.user q) = w.leaf (.user q)
  kern : w'.leaf (.kern q) = w.leaf (.kern q)
  thereUser : w.there (.user q) → w'.there (.user q)
  thereKern : w.there (.kern q) → w'.there (.kern q)

/-- A process that stays is alive as before. -/
theorem Alive.same {w w' : World P O F} {q : P} (h : Alive w q) (h' : Same q w w') :
    Alive w' q := by
  refine ⟨h'.thereUser h.user, h'.thereKern h.kern, ?_⟩
  unfold SpaceAt
  rw [h'.user, h'.kern]
  refine ⟨?_, ?_, h.space.mirror, ?_⟩
  · rw [h'.sz, h'.vmas]
    exact h.space.layout
  · intro n e hn he
    have hcov := h.space.foot n e hn he
    unfold Covered at hcov ⊢
    rw [h'.sz, h'.vmas]
    exact hcov
  · rw [h'.vmas]
    exact h.space.resident

/-- A step that leaves a living process as it is, or in order. -/
theorem Spaces.of_same {w w' : World P O F} (h : Spaces w)
    (hstep : ∀ q, (w'.proc q).state = .live → Same q w w' ∨ Alive w' q) : Spaces w' := by
  intro q hq
  rcases hstep q hq with hsame | halive
  · apply (h q ?_).same hsame
    rw [← hsame.state, hq]
  · exact halive

/-- A step on a pair keeps the third. -/
theorem Pair.same {p c q : P} {w w' : World P O F} (h : Pair p c w w') (hp : q ≠ p)
    (hc : q ≠ c) : Same q w w' := by
  constructor
  · rw [h.proc q hc]
  · rw [h.proc q hc]
  · rw [h.proc q hc]
  · exact h.leaf _ (by simpa using hp) (by simp) (by simpa using hc) (by simp)
  · exact h.leaf _ (by simp) (by simpa using hp) (by simp) (by simpa using hc)
  · rw [h.there _ (by simpa using hc) (by simp)]
    exact id
  · rw [h.there _ (by simp) (by simpa using hc)]
    exact id

/-- A step on one process keeps another. -/
theorem Only.same {c q : P} {w w' : World P O F} (h : Only c w w') (hc : q ≠ c) : Same q w w' :=
  Pair.same (p := c) h.pair hc hc

/-- An own step keeps another. -/
theorem Own.same {p q : P} {w w' : World P O F} (h : Own p w w') (hq : q ≠ p) : Same q w w' :=
  h.only.same hq

/-- A step of one process keeps another. -/
theorem Self.same {p q : P} {w w' : World P O F} (h : Self p w w') (hq : q ≠ p) :
    Same q w w' := by
  constructor
  · rw [h.proc q hq]
  · rw [h.proc q hq]
  · rw [h.proc q hq]
  · exact h.leaf _ (by simpa using hq) (by simp) (by simp)
  · exact h.leaf _ (by simp) (by simpa using hq) (by simp)
  · exact h.there _ (by simp)
  · exact h.there _ (by simp)

/-- A still step keeps a process. -/
theorem Still.same {q : P} {w w' : World P O F} (h : Still w w')
    (hstate : (w'.proc q).state = (w.proc q).state) : Same q w w' := by
  constructor
  · exact hstate
  · exact h.sz q
  · exact h.vmas q
  · rw [h.leaf]
  · rw [h.leaf]
  · rw [h.there]
    exact id
  · rw [h.there]
    exact id

/-- A still step keeps the spaces. -/
theorem Spaces.still {w w' : World P O F} (h : Spaces w) (h' : Still w w')
    (hstate : ∀ q, (w'.proc q).state = (w.proc q).state) : Spaces w' :=
  h.of_same fun q _ ↦ .inl (h'.same (hstate q))

/-- A call of process `p` on its own memory. -/
theorem Spaces.own {p : P} {w w' : World P O F} (h : Spaces w) (hp : (w.proc p).state = .live)
    (h' : Own p w w') (hs : SpaceAt w' p) : Spaces w' := by
  apply h.of_same
  intro q _
  by_cases hq : q = p
  · subst hq
    have halive := h q hp
    exact .inr ⟨by rw [h'.there, halive.user], by rw [h'.there, halive.kern], hs⟩
  · exact .inl (h'.same hq)

variable [DecidableEq P]

/-! ### The first process -/

omit [DecidableEq P] in
/-- A process whose two tables are filled for the first time. -/
theorem Space.first {q : Proc P O F} {u k : Nat → Option Pte} (hvmas : ∀ i, q.vmas i = none)
    (hfits : Fits q.sz u) (hk : ∀ n, UserPage n → k n = none) :
    Space q u fun n ↦ if n ∈ copied q.sz then ((u n).map Pte.mirror).or (k n) else k n := by
  refine ⟨?_, ?_, ?_, ?_⟩
  · rw [show q.vmas = fun _ ↦ none from funext hvmas]
    exact Layout.empty _
  · intro n e hn he
    rcases hfits n e hn he with hlow | hstack
    · exact .inl hlow
    · exact .inr (.inl (mem_stackPages.mp hstack))
  · apply Mirror.copy
    intro n e hn he
    rw [hk n hn] at he
    cases he
  · intro i v hv
    rw [hvmas] at hv
    cases hv

variable [DecidableEq O] [DecidableEq F]

/-- `userinit` makes the first process. -/
theorem userinit_spec (b : Boot P) {w : World P O F} (code : Nat → UInt8)
    (hunused : (w.proc b.init).state = .unused) :
    Ensures (userinit b code) w fun _ w' ↦ Only b.init w w' ∧ Alive w' b.init := by
  unfold userinit
  apply (allocproc_spec b w b.init hunused).bind
  rintro ok w1 ⟨h1, hnew, -⟩
  rw [ensures_ite]
  refine ⟨fun hok ↦ ?_, fun _ ↦ ensures_halt⟩
  have hnew := hnew hok
  apply (kallocPage_quiet w1).bind
  intro r w2 h2
  cases r with
  | none => exact ensures_halt
  | some pa =>
    rw [ensures_bind, ensures_modify, ensures_bind]
    set w3 : World P O F := { w2 with mem := Function.update w2.mem pa code }
    have h3 : Quiet w1 w3 := h2.trans (.of_eq rfl rfl rfl rfl rfl)
    clear_value w3
    apply (mappages_spec w3 (.user b.init) 0 pa _).mono
    rintro ok w4 h4
    rw [ensures_ite]
    refine ⟨fun hok ↦ ?_, fun _ ↦ ensures_halt⟩
    obtain ⟨-, -, h4⟩ := h4.resolve_right (by simp [hok])
    rw [h3.leaf] at h4
    have hput := h3.eff.trans h4
    have hb4 : Below (.user b.init) w4 pgsize := by
      intro n e hn he
      rw [hput.leaf, Leaves.put_apply] at he
      split_ifs at he with hc
      · rw [hc.2]
        decide
      · rw [hnew.user.leaf n hn] at he
        cases he
    apply (uvmStackInit_spec hb4).bind
    rintro ok w5 ⟨h5, hfits⟩
    rw [ensures_ite]
    refine ⟨fun hok ↦ ?_, fun _ ↦ ensures_halt⟩
    have hfits := hfits hok
    have hfill : Fill (.user b.init) w1 w5 :=
      (hput.fill fun t ht ↦ Leaves.put_ne _ ht _ _).trans h5
    have hset : Ensures (setProc b.init fun q ↦ { q with sz := pgsize, state := .live }) w5
        fun _ w' ↦ Only b.init w5 w' ∧ w'.leaf = w5.leaf ∧ (∀ t, w'.there t = w5.there t) ∧
          (w'.proc b.init).sz = pgsize ∧ (w'.proc b.init).vmas = (w5.proc b.init).vmas := by
      apply (setProc_only w5 _ _).and
      unfold setProc
      rw [ensures_modify]
      refine ⟨rfl, fun _ ↦ rfl, ?_, ?_⟩
      · simp
      · simp
    apply hset.bind
    rintro _ w6 ⟨honly6, hleaf6, hthere6, hsz6, hvmas6⟩
    have hne : Tbl.user b.init ≠ Tbl.kern b.init := by simp
    apply (upg2ukpg_spec w6 hne (pages 0 pgsize)).bind
    rintro ok w7 ⟨ms, h7, -, hms⟩
    rw [ensures_ite]
    refine ⟨fun hok ↦ ?_, fun _ ↦ ensures_halt⟩
    rw [hms hok] at h7
    unfold uvmStackSync
    apply (upg2ukpg_spec w7 hne stackPages).bind
    rintro ok w8 ⟨ms', h8, -, hms'⟩
    rw [ensures_ite, ensures_pure]
    refine ⟨fun hok ↦ ?_, fun _ ↦ ensures_halt⟩
    rw [hms' hok, h7.leaf, Leaves.copy_copy _ hne] at h8
    have h := h7.trans h8
    have hthere : ∀ t, w8.there t = w1.there t := by
      intro t
      rw [h.core.there, hthere6, hfill.core.there]
    constructor
    · have honly8 : Only b.init w6 w8 := (h.at fun t ht ↦ Leaves.copy_ne _ ht _).only (.inr rfl)
      exact ((h1.trans (hfill.at.only (.inl rfl))).trans honly6).trans honly8
    · refine ⟨by rw [hthere, hnew.user.there], by rw [hthere, hnew.kern.there], ?_⟩
      unfold SpaceAt
      rw [h.core.proc, h.leaf, Leaves.copy_ne _ hne, Leaves.copy_same]
      have hsz : copied pgsize = copied (w6.proc b.init).sz := by rw [hsz6]
      change Space _ _ fun n ↦ if n ∈ copied pgsize then _ else _
      rw [hsz]
      apply Space.first
      · intro i
        rw [hvmas6, hfill.core.proc]
        exact hnew.vmas i
      · rw [hsz6, hleaf6]
        exact hfits
      · intro n hn
        rw [hleaf6, hfill.leaf _ (by simp)]
        exact hnew.kern.leaf n hn

/-! ### The other calls -/

omit [DecidableEq P] [DecidableEq O] [DecidableEq F] in
/-- Arguments fetched to pages change no entry. -/
theorem argvPages_quiet (args : List (List UInt8)) (pas : List Nat) (w : World P O F) :
    Ensures (argvPages args pas) w fun _ w' ↦ Quiet w w' := by
  induction args generalizing pas w with
  | nil =>
    rw [argvPages, ensures_pure]
    exact .refl w
  | cons arg args ih =>
    rw [argvPages]
    apply ensures_quiet_bind (kallocPage_quiet w)
    intro r w1
    cases r with
    | none =>
      rw [ensures_pure]
      exact .refl w1
    | some pa => exact ih _ w1

omit [DecidableEq P] [DecidableEq O] [DecidableEq F] in
/-- A quiet step is still. -/
theorem Quiet.still {w w' : World P O F} (h : Quiet w w') : Still w w' := h.tab.still

omit [DecidableEq P] [DecidableEq O] [DecidableEq F] in
/-- A quiet step keeps the spaces. -/
theorem Spaces.quiet {w w' : World P O F} (h : Spaces w) (h' : Quiet w w') : Spaces w' :=
  h.still h'.still fun q ↦ by rw [h'.core.proc]

private theorem sysExec_keeps (b : Boot P) {p : P} {w : World P O F} (img : Image) (h : Spaces w)
    (hp : (w.proc p).state = .live) : Ensures (sysExec b p img) w fun _ w' ↦ Spaces w' := by
  have hfree : ∀ {w1 : World P O F} (pas : List Nat), Spaces w1 →
      Ensures (forEach kfreePage pas) w1 fun _ w' ↦ Spaces w' := by
    intro w1 pas h1
    apply (kfreePages_quiet w1 pas).mono
    intro _ w2 h2
    exact h1.quiet h2
  unfold sysExec
  apply (argvPages_quiet _ _ w).bind
  rintro ⟨fetched, pas⟩ w1 h1
  have hs1 := h.quiet h1
  have hp1 : (w1.proc p).state = .live := by rw [h1.core.proc, hp]
  dsimp only
  rw [ensures_ite]
  constructor
  · intro _
    have halive := hs1 p hp1
    apply (exec_spec b img halive.space halive.user halive.kern).bind
    rintro r w2 ⟨hself, hspace⟩
    simp only [ensures_bind, ensures_pure]
    apply hfree
    apply hs1.of_same
    intro q _
    by_cases hq : q = p
    · rw [hq]
      exact .inr ⟨hself.there _ (by simp) halive.user, hself.there _ (by simp) halive.kern, hspace⟩
    · exact .inl (hself.same hq)
  · intro _
    simp only [ensures_bind, ensures_pure]
    exact hfree pas hs1

omit [DecidableEq O] in
/-- Closing files at exit keeps the entries. -/
theorem exitFiles_spec (w : World P O F) (p : P) (fds : List (Fin nofile)) :
    Ensures (forEach (exitFile p) fds) w fun _ w' ↦ Only p w w' ∧ Still w w' := by
  apply ensures_forEach (fun _ w' ↦ Only p w w' ∧ Still w w') _ ⟨.refl p w, .refl w⟩
  rintro fd fds w1 ⟨honly, hstill⟩
  unfold exitFile
  rw [ensures_bind, ensures_get]
  split
  · exact ensures_pure.mpr ⟨honly, hstill⟩
  · rename_i f _
    apply (fileclose_tab w1 f).bind
    intro _ w2 h2
    refine ((setProc_only w2 p _).and (setProc_still w2 p ?_)).mono ?_
    · intro q
      exact ⟨rfl, rfl⟩
    · rintro _ w3 ⟨h3, h3'⟩
      have honly2 : Only p w1 w2 := (h2.own fun _ _ _ ↦ rfl).only
      exact ⟨(honly.trans honly2).trans h3, (hstill.trans h2.still).trans h3'⟩

omit [DecidableEq P] [DecidableEq O] [DecidableEq F] in
/-- Steps that keep a process compose. -/
theorem Same.trans {q : P} {w w' w'' : World P O F} (h : Same q w w') (h' : Same q w' w'') :
    Same q w w'' := by
  constructor
  · rw [h'.state, h.state]
  · rw [h'.sz, h.sz]
  · rw [h'.vmas, h.vmas]
  · rw [h'.user, h.user]
  · rw [h'.kern, h.kern]
  · intro ht
    exact h'.thereUser (h.thereUser ht)
  · intro ht
    exact h'.thereKern (h.thereKern ht)

/-- A process that exits is a zombie, and the others keep their memory. -/
theorem exit_spec (b : Boot P) (w : World P O F) (p : P) :
    Ensures (exit b p) w fun _ w' ↦
      (w'.proc p).state = .zombie ∧ ∀ q, q ≠ p → Same q w w' := by
  unfold exit
  rw [ensures_ite]
  refine ⟨fun _ ↦ ensures_halt, fun _ ↦ ?_⟩
  apply (exitFiles_spec w p _).bind
  rintro _ w1 ⟨h1, -⟩
  apply (vmaDestroyAll_own w1 p).bind
  intro _ w2 h2
  rw [ensures_bind, ensures_modify]
  refine ((setProc_only _ p _).and (ensures_modify.mpr ?_ :
    Ensures (setProc p _) _ fun _ w' ↦ (w'.proc p).state = .zombie)).mono ?_
  · simp
  · rintro _ w3 ⟨h3, hzombie⟩
    refine ⟨hzombie, ?_⟩
    intro q hq
    refine (h1.same hq).trans ((h2.same hq).trans (Same.trans ?_ (h3.same hq)))
    constructor
    · dsimp only
      split_ifs <;> rfl
    · dsimp only
      split_ifs <;> rfl
    · dsimp only
      split_ifs <;> rfl
    · rfl
    · rfl
    · exact id
    · exact id

omit [DecidableEq F] in
/-- A fault of process `p`. -/
theorem vmResolveFault_own {p : P} {w : World P O F} (address : Nat) (access : Access)
    (h : SpaceAt w p) :
    Ensures (vmResolveFault p address access) w fun _ w' ↦ Own p w w' ∧ SpaceAt w' p := by
  by_cases hmax : maxuva ≤ address
  · unfold vmResolveFault
    rw [ensures_bind, ensures_get]
    simp only [hmax, if_true, ensures_pure]
    exact ⟨.refl p w, h⟩
  · apply (vmResolveFault_spec w p address access).mono
    rintro _ w' ⟨hf, -⟩
    apply hf.eff.space _ h
    exact (Nat.div_mul_le_self address pgsize).trans_lt (Nat.lt_of_not_le hmax)

private theorem waitFor_keeps (b : Boot P) {p c : P} {w : World P O F} (touched : List Nat)
    (stored : Bool) (h : Spaces w) (hp : (w.proc p).state = .live)
    (hc : (w.proc c).state = .zombie) :
    Ensures (waitFor b p c touched stored) w fun _ w' ↦ Spaces w' := by
  have hpc : p ≠ c := by
    rintro rfl
    rw [hp] at hc
    cases hc
  -- while the status is stored the child is no living process
  let inv (w' : World P O F) : Prop :=
    Spaces w' ∧ (w'.proc p).state = .live ∧ (w'.proc c).state ≠ .live
  have hheld : ∀ {w1 : World P O F} (x : Bool), inv w1 →
      Ensures (setHeld x) w1 fun _ w' ↦ inv w' := by
    rintro w1 x ⟨hs, hlive, hdead⟩
    apply (setHeld_still w1 x).mono
    rintro _ w2 ⟨hproc, hstill⟩
    refine ⟨hs.still hstill fun q ↦ by rw [hproc], ?_, ?_⟩
    · rw [hproc, hlive]
    · rw [hproc]
      exact hdead
  unfold waitFor
  apply (hheld true ⟨h, hp, by rw [hc]; simp⟩).bind
  rintro _ w1 ⟨hs1, hlive1, hdead1⟩
  have hvm : Ensures (freeprocvm b c) w1 fun _ w' ↦ inv w' := by
    apply ((freeprocvm_only b w1 c).and (freeprocvm_state b w1 c)).mono
    rintro _ w2 ⟨h2, hstate⟩
    refine ⟨?_, ?_, ?_⟩
    · apply hs1.of_same
      intro q hq
      have hqc : q ≠ c := by
        rintro rfl
        rw [hstate] at hq
        exact hdead1 hq
      exact .inl (h2.same hqc)
    · rw [h2.proc p hpc, hlive1]
    · rw [hstate]
      exact hdead1
  apply hvm.bind
  intro _ w2 h2
  have hfaults : Ensures (forEach (fun a ↦ do let _ ← vmResolveFault p a .write) touched) w2
      fun _ w' ↦ inv w' := by
    apply ensures_forEach (fun _ w' ↦ inv w') _ h2
    rintro a _ w3 ⟨hs3, hlive3, hdead3⟩
    simp only [ensures_bind, ensures_pure]
    apply (vmResolveFault_own a .write (hs3 p hlive3).space).mono
    rintro _ w4 ⟨hown, hspace⟩
    refine ⟨hs3.own hlive3 hown hspace, ?_, ?_⟩
    · rw [hown.mine, hlive3]
    · rw [hown.proc c (Ne.symm hpc)]
      exact hdead3
  apply hfaults.bind
  rintro _ w3 ⟨hs3, hlive3, hdead3⟩
  have hfree : Ensures (doIf stored (freeproc b c)) w3 fun _ w' ↦ inv w' := by
    rw [ensures_doIf]
    refine ⟨fun _ ↦ ?_, fun _ ↦ ⟨hs3, hlive3, hdead3⟩⟩
    apply ((freeproc_only b w3 c).and (freeproc_unused b w3 c)).mono
    rintro _ w4 ⟨h4, hunused⟩
    refine ⟨?_, ?_, by rw [hunused]; simp⟩
    · apply hs3.of_same
      intro q hq
      have hqc : q ≠ c := by
        rintro rfl
        rw [hunused] at hq
        cases hq
      exact .inl (h4.same hqc)
    · rw [h4.proc p hpc, hlive3]
  apply hfree.bind
  intro _ w4 h4
  simp only [ensures_bind, ensures_pure]
  exact (hheld false h4).mono fun _ _ h ↦ h.1

omit [DecidableEq O] [DecidableEq F] in
/-- A change of a process that is neither one of its memory nor one of its state. -/
theorem setProc_spaces {w : World P O F} (h : Spaces w) (p : P) {f : Proc P O F → Proc P O F}
    (hf : ∀ q, (f q).state = q.state ∧ (f q).sz = q.sz ∧ (f q).vmas = q.vmas) :
    Ensures (setProc p f) w fun _ w' ↦ Spaces w' := by
  refine ((setProc_still w p fun q ↦ (hf q).2).and (ensures_modify.mpr ?_ :
    Ensures (setProc p f) w fun _ w' ↦ ∀ q, (w'.proc q).state = (w.proc q).state)).mono ?_
  · intro q
    dsimp only
    by_cases hq : q = p
    · rw [hq, Function.update_self, (hf _).1]
    · rw [Function.update_of_ne hq]
  · rintro _ w' ⟨hstill, hstate⟩
    exact h.still hstill hstate

omit [DecidableEq P] [DecidableEq O] [DecidableEq F] in
/-- A store changes no entry. -/
theorem store_quiet (w : World P O F) (t : Tbl P) (va : Nat) (x : UInt8) :
    Ensures (store t va x) w fun _ w' ↦ Quiet w w' := by
  unfold store
  rw [ensures_bind, ensures_get]
  split
  · exact ensures_pure.mpr (.refl w)
  · rw [ensures_ite, ensures_set, ensures_pure]
    exact ⟨fun _ ↦ .of_eq rfl rfl rfl rfl rfl, fun _ ↦ .refl w⟩

omit [DecidableEq O] in
private theorem openFile_spaces {w : World P O F} (h : Spaces w) (p : P)
    (fd : Fin nofile) (f : F) (x : File) :
    Ensures (openFile p fd f x) w fun _ w' ↦ Spaces w' := by
  unfold openFile
  rw [ensures_modify]
  apply h.of_same
  intro q _
  by_cases hq : q = p
  · subst hq
    left
    constructor
    · simp
    · simp
    · simp
    · rfl
    · rfl
    · exact id
    · exact id
  · left
    constructor
    · simp [hq]
    · simp [hq]
    · simp [hq]
    · rfl
    · rfl
    · exact id
    · exact id

omit [DecidableEq P] [DecidableEq O] [DecidableEq F] in
/-- A call that changes the memory of one process. -/
theorem ensures_spaces_own {α : Type} {w : World P O F} {p : P} (h : Spaces w)
    (hp : (w.proc p).state = .live) {x : Kern P O F α}
    (hx : Ensures x w fun _ w' ↦ Own p w w' ∧ SpaceAt w' p) :
    Ensures (do let _ ← x) w fun _ w' ↦ Spaces w' := by
  simp only [ensures_bind, ensures_pure]
  apply hx.mono
  rintro _ w' ⟨hown, hspace⟩
  exact h.own hp hown hspace

/-- Every call keeps the address spaces. -/
theorem runCall_spaces (b : Boot P) {w : World P O F} {call : Call P F} (h : Spaces w)
    (hen : Enabled b w call) : Ensures (runCall b call) w fun _ w' ↦ Spaces w' := by
  cases call with
  | userinit code =>
    apply (userinit_spec b code hen).mono
    rintro _ w' ⟨honly, halive⟩
    apply h.of_same
    intro q _
    by_cases hq : q = b.init
    · exact .inr (hq ▸ halive)
    · exact .inl (honly.same hq)
  | openFile p fd f x => exact openFile_spaces h p fd f x
  | dup p f fd =>
    change Ensures (setProc p _ >>= fun _ ↦ filedup f) w _
    refine (setProc_spaces h p ?_).bind ?_
    · intro q
      exact ⟨rfl, rfl, rfl⟩
    · intro _ w1 h1
      apply (filedup_tab w1 f).mono
      intro _ w2 h2
      exact h1.still h2.still fun q ↦ by rw [h2.proc]
  | close p fd f =>
    change Ensures (setProc p _ >>= fun _ ↦ fileclose f) w _
    refine (setProc_spaces h p ?_).bind ?_
    · intro q
      exact ⟨rfl, rfl, rfl⟩
    · intro _ w1 h1
      apply (fileclose_tab w1 f).mono
      intro _ w2 h2
      exact h1.still h2.still fun q ↦ by rw [h2.proc]
  | mmap p addr length prot flags fd offset =>
    exact ensures_spaces_own h hen (sysMmap_spec addr length prot flags fd offset (h p hen).space)
  | munmap p addr length =>
    exact ensures_spaces_own h hen (sysMunmap_spec addr length (h p hen).space)
  | sbrk p n => exact ensures_spaces_own h hen (sysSbrk_spec n (h p hen).space)
  | fault p address access =>
    exact ensures_spaces_own h hen (vmResolveFault_own address access (h p hen).space)
  | store p va x => exact (store_quiet w _ va x).mono fun _ _ h' ↦ h.quiet h'
  | copyout p va x => exact (store_quiet w _ va x).mono fun _ _ h' ↦ h.quiet h'
  | fork p c =>
    have hpc : p ≠ c := by
      rintro rfl
      have hlive := hen.1
      rw [hen.2] at hlive
      cases hlive
    have halive := h p hen.1
    change Ensures (do let _ ← fork b p c) w _
    simp only [ensures_bind, ensures_pure]
    apply (fork_spec b hpc hen.2 halive.space).mono
    rintro ok w' ⟨hpair, hp, hc, hfail⟩
    apply h.of_same
    intro q hq
    by_cases hqp : q = p
    · right
      subst hqp
      refine ⟨?_, ?_, hp⟩
      · rw [hpair.there _ (by simpa using hpc) (by simp), halive.user]
      · rw [hpair.there _ (by simp) (by simpa using hpc), halive.kern]
    · by_cases hqc : q = c
      · right
        subst hqc
        cases ok with
        | true =>
          obtain ⟨hspace, hu, hk⟩ := hc rfl
          exact ⟨hu, hk, hspace⟩
        | false =>
          rw [hfail rfl] at hq
          cases hq
      · exact .inl (hpair.same hqp hqc)
  | exec p img =>
    change Ensures (do let _ ← sysExec b p img) w _
    simp only [ensures_bind, ensures_pure]
    exact sysExec_keeps b img h hen
  | exit p =>
    apply (exit_spec b w p).mono
    rintro _ w' ⟨hzombie, hothers⟩
    apply h.of_same
    intro q hq
    by_cases hqp : q = p
    · rw [hqp, hzombie] at hq
      cases hq
    · exact .inl (hothers q hqp)
  | wait p c touched stored =>
    change Ensures (do let _ ← waitFor b p c touched stored) w _
    simp only [ensures_bind, ensures_pure]
    exact waitFor_keeps b touched stored h hen.1 hen.2.1

/-- Each step keeps the spaces. -/
theorem Spaces.step {b : Boot P} {w w' : World P O F} {e : Event P O F} (h : Spaces w)
    (hstep : Step b w e w') : Spaces w' := by
  have hreset : Spaces { w with answers := e.answers, io := e.io, slept := false } :=
    h.quiet (.of_eq rfl rfl rfl rfl rfl)
  exact (runCall_spaces b hreset hstep.1).of_ok () w' hstep.2

/-- The address spaces are in order after every run. -/
theorem spaces_of_runs {b : Boot P} {data : Nat → List UInt8} {es : List (Event P O F)}
    {w : World P O F} (h : Runs (Step b) (World.boot data) es w) : Spaces w := by
  apply Runs.invariant (fun w ↦ Spaces w) (fun _ _ _ hs hstep ↦ hs.step hstep) h
  intro p hp
  cases hp

/-! ### Runs that compute -/

instance (b : Boot P) (w : World P O F) (call : Call P F) : Decidable (Enabled b w call) :=
  match call with
  | .userinit _ => inferInstanceAs (Decidable (_ = _))
  | .openFile _ _ _ _ => inferInstanceAs (Decidable (_ ∧ _))
  | .dup _ _ _ => inferInstanceAs (Decidable (_ ∧ _))
  | .close _ _ _ => inferInstanceAs (Decidable (_ ∧ _))
  | .mmap _ _ _ _ _ _ _ => inferInstanceAs (Decidable (_ = _))
  | .munmap _ _ _ => inferInstanceAs (Decidable (_ = _))
  | .sbrk _ _ => inferInstanceAs (Decidable (_ = _))
  | .fault _ _ _ => inferInstanceAs (Decidable (_ = _))
  | .store _ _ _ => inferInstanceAs (Decidable (_ ∧ _))
  | .copyout _ _ _ => inferInstanceAs (Decidable (_ ∧ _))
  | .fork _ _ => inferInstanceAs (Decidable (_ ∧ _))
  | .exec _ _ => inferInstanceAs (Decidable (_ = _))
  | .exit _ => inferInstanceAs (Decidable (_ = _))
  | .wait _ _ _ _ => inferInstanceAs (Decidable (_ ∧ _))

/-- The state after a call, if it can be made and returns. -/
def World.next (b : Boot P) (w : World P O F) (e : Event P O F) : Option (World P O F) :=
  if Enabled b w e.call then
    match runCall b e.call { w with answers := e.answers, io := e.io, slept := false } with
    | .ok (_, w') => some w'
    | .error _ => none
  else
    none

/-- A step that is computed. -/
theorem World.step_of_next {b : Boot P} {w w' : World P O F} {e : Event P O F}
    (h : w.next b e = some w') : Step b w e w' := by
  unfold World.next at h
  split_ifs at h with hen
  refine ⟨hen, ?_⟩
  split at h
  · rename_i heq
    cases h
    exact heq
  · cases h

/-- The state after a list of calls. -/
def World.after (b : Boot P) : World P O F → List (Event P O F) → Option (World P O F)
  | w, [] => some w
  | w, e :: es => (w.next b e).bind fun w' ↦ w'.after b es

/-- Calls that compute to a state with a property are a run that ends with it. -/
theorem World.runs_of_after {b : Boot P} {es : List (Event P O F)} {w : World P O F}
    {good : World P O F → Bool} (h : (w.after b es).any good) :
    ∃ w', Runs (Step b) w es w' ∧ good w' := by
  induction es generalizing w with
  | nil => exact ⟨w, .nil w, h⟩
  | cons e es ih =>
    rw [World.after] at h
    cases hn : w.next b e with
    | none =>
      rw [hn] at h
      cases h
    | some w1 =>
      rw [hn] at h
      obtain ⟨w', hrun, hgood⟩ := ih h
      exact ⟨w', .cons (World.step_of_next hn) hrun, hgood⟩

/-- A kernel with one mapping of its own. -/
def Boot.small : Boot Bool where
  trampoline := 1
  sigtramp := 2
  kmaps := [(maxuva / pgsize, ⟨3, ⟨true, true, false, false, false⟩⟩)]
  init := false
  above := by decide

/-- A call whose allocations yield 20 pages in a row. -/
def Call.event (call : Call Bool Nat) (pa : Nat) : Event Bool Nat Nat :=
  ⟨call, (List.range' pa 20).map fun i ↦ some (i, i), []⟩

/-! ### The results -/

/-- After every run from the boot, the mappings of a living process are page aligned, not empty,
pairwise disjoint, between the heap and the guard page of the stack, end with the page of their
last valid byte, and are resident if they have no fault operation. -/
theorem vma_layout {b : Boot P} {data : Nat → List UInt8} {es : List (Event P O F)}
    {w : World P O F} (h : Runs (Step b) (World.boot data) es w) {p : P}
    (hp : (w.proc p).state = .live) :
    (∀ i v, (w.proc p).vmas i = some v →
      v.start % pgsize = 0 ∧ v.fin % pgsize = 0 ∧ v.start < v.fin ∧
      pgroundup (w.proc p).sz ≤ v.start ∧ v.fin ≤ mmapTop ∧
      v.fin - pgsize < v.validEnd ∧ v.validEnd ≤ v.fin ∧
      (∀ a, v.contains a → ¬ (userStackBottom ≤ a ∧ a < userStackTop)) ∧
      (v.ops = false → ∀ n ∈ pages v.start v.fin, (w.leaf (.user p) n).isSome)) ∧
    ∀ i j v v', (w.proc p).vmas i = some v → (w.proc p).vmas j = some v' → i ≠ j →
      ∀ a, ¬ (v.contains a ∧ v'.contains a) := by
  have hs := (spaces_of_runs h p hp).space
  constructor
  · intro i v hv
    have hok := hs.layout.ok i v hv
    refine ⟨hok.start_mod, hok.fin_mod, hok.start_lt, hs.layout.above i v hv, hok.fin_le, ?_,
      hok.valid_le, ?_, ?_⟩
    · have hgt := hok.valid_gt
      have hlt := hok.start_lt
      have h1 := hok.start_mod
      have h2 := hok.fin_mod
      unfold pgsize at *
      omega
    · rintro a hc ⟨hlow, -⟩
      rw [Vma.contains_iff] at hc
      exact absurd (hc.2.trans_le hok.fin_le) (Nat.not_lt.mpr hlow)
    · intro hops n hn
      exact hs.resident i v hv hops n (hok.mem_pages.mp hn)
  · rintro i j v v' hv hv' hij a ⟨ha, ha'⟩
    exact hij (hs.layout.unique hv hv' ha ha')

/-- The first process maps 5000 bytes. -/
theorem vma_layout_small : ∃ w : World Bool Nat Nat,
    Runs (Step .small) (World.boot fun _ ↦ [])
      [Call.event (.userinit fun _ ↦ 0) 10, Call.event (.mmap false 0 5000 3 0x22 (-1) 0) 30] w ∧
    ∃ i v, (w.proc false).vmas i = some v ∧ v.start % pgsize = 0 ∧
      pgroundup (w.proc false).sz ≤ v.start ∧ v.fin ≤ mmapTop := by
  have hafter : ((World.boot fun _ ↦ []).after Boot.small
      [Call.event (.userinit fun _ ↦ 0) 10,
        Call.event (.mmap false 0 5000 3 0x22 (-1) 0) 30]).any fun w ↦
      (w.proc false).state = .live ∧ ((w.proc false).vmas ⟨0, by decide⟩).isSome := by
    decide +kernel
  obtain ⟨w, hrun, hgood⟩ := World.runs_of_after hafter
  obtain ⟨hlive, hsome⟩ := of_decide_eq_true hgood
  obtain ⟨v, hv⟩ := Option.isSome_iff_exists.mp hsome
  have h := (vma_layout hrun hlive).1 _ v hv
  exact ⟨w, hrun, _, v, hv, h.1, h.2.2.2.1, h.2.2.2.2.1⟩

/-- After every run from the boot, an entry of the kernel table of a living process for a page of
user memory has a user entry with the same physical page and the same permissions but `PTE_U`. -/
theorem kernel_mirror {b : Boot P} {data : Nat → List UInt8} {es : List (Event P O F)}
    {w : World P O F} (h : Runs (Step b) (World.boot data) es w) {p : P}
    (hp : (w.proc p).state = .live) {n : Nat} (hn : n * pgsize < maxuva) {e : Pte}
    (he : w.leaf (.kern p) n = some e) :
    ∃ e', w.leaf (.user p) n = some e' ∧ e.pa = e'.pa ∧
      e.perm = { e'.perm with u := false } := by
  obtain ⟨e', hu, rfl⟩ := (spaces_of_runs h p hp).space.mirror n e hn he
  exact ⟨e', hu, rfl, rfl⟩

/-- The first process maps two pages, writes to them and forks; then it writes to the first again,
and unmaps the second. -/
def mirrorRun : List (Event Bool Nat Nat) :=
  [Call.event (.userinit fun _ ↦ 0) 10, Call.event (.mmap false 0 8192 3 0x22 (-1) 0) 30,
    Call.event (.fault false (mmapTop - 8192) .write) 50,
    Call.event (.fault false (mmapTop - 4096) .write) 70, Call.event (.fork false true) 90,
    Call.event (.fault false (mmapTop - 8192) .write) 110,
    Call.event (.munmap false (mmapTop - 4096) 4096) 130]

/-- The parent's mirror of the first page is writable and the child's is not, each as the user entry
is, and of the page that was unmapped only the child has a mirror. -/
theorem kernel_mirror_small : ∃ w : World Bool Nat Nat,
    Runs (Step .small) (World.boot fun _ ↦ []) mirrorRun w ∧
    w.leaf (.kern false) (mmapTop / pgsize - 1) = none ∧
    (w.leaf (.kern true) (mmapTop / pgsize - 1)).isSome ∧
    (∃ e', w.leaf (.user false) (mmapTop / pgsize - 2) = some e' ∧ 110 = e'.pa ∧
      ⟨true, true, false, false, false⟩ = { e'.perm with u := false }) ∧
    ∃ e', w.leaf (.user true) (mmapTop / pgsize - 2) = some e' ∧ 50 = e'.pa ∧
      ⟨true, false, false, false, true⟩ = { e'.perm with u := false } := by
  have hafter : ((World.boot fun _ ↦ []).after Boot.small mirrorRun).any fun w ↦
      (w.proc false).state = .live ∧ (w.proc true).state = .live ∧
      w.leaf (.kern false) (mmapTop / pgsize - 1) = none ∧
      (w.leaf (.kern true) (mmapTop / pgsize - 1)).isSome ∧
      w.leaf (.kern false) (mmapTop / pgsize - 2) =
        some ⟨110, true, true, false, false, false⟩ ∧
      w.leaf (.kern true) (mmapTop / pgsize - 2) = some ⟨50, true, false, false, false, true⟩ := by
    decide +kernel
  obtain ⟨w, hrun, hgood⟩ := World.runs_of_after hafter
  obtain ⟨hparent, hchild, hgone, hkept, hfirst, hcopy⟩ := of_decide_eq_true hgood
  exact ⟨w, hrun, hgone, hkept, kernel_mirror hrun hparent (by decide) hfirst,
    kernel_mirror hrun hchild (by decide) hcopy⟩

end Xv6K210.Vm
