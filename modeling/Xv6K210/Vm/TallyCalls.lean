import Xv6K210.Vm.TallyFork
import Xv6K210.Vm.TallyMmap
import Xv6K210.Vm.TallyProcess

/-!
# System calls in the tally

What `fork`, `exit`, `wait`, `exec` and the first process do to the page accounts, and
what they leave of the records of the processes.
-/

namespace Xv6K210.Vm

open Xv6K210.Base Prog Function

variable {P O F : Type} [DecidableEq P] {ct : Owner P O → Option (Nat → UInt8)} {hs : List Nat}
  {w : World P O F}

omit [DecidableEq P] in
private theorem setHeld_tally (x : Bool) (h : Tally ct w.frames hs w) :
    Ensures (setHeld x) w fun _ w' ↦ Tally ct w'.frames hs w' ∧ w'.proc = w.proc ∧
      w'.pt = w.pt := by
  unfold setHeld
  rw [ensures_modify]
  exact ⟨h.alike ⟨rfl, rfl, fun _ ↦ rfl, fun _ ↦ rfl⟩ rfl rfl, rfl, rfl⟩

section

omit [DecidableEq P] in
/-- A routine on the table of open files. -/
theorem fileTally_of {x : Kern P O F Unit} (h : Tally ct w.frames hs w)
    (hx : Ensures x w fun _ w' ↦ Alike w w' ∧ w'.quota = w.quota ∧ w'.mem = w.mem)
    (hproc : Ensures x w fun _ w' ↦ w'.proc = w.proc) :
    Ensures x w fun _ w' ↦ Tally ct w'.frames hs w' ∧ w'.proc = w.proc ∧ w'.pt = w.pt := by
  apply (hx.and hproc).mono
  rintro _ w' ⟨⟨halike, hquota, hmem⟩, hproc'⟩
  rw [World.frames_eq hproc']
  exact ⟨h.alike halike hquota hmem, hproc', halike.pt⟩

variable [DecidableEq F]

omit [DecidableEq P] in
/-- `filedup` keeps the tally. -/
theorem filedup_frames (h : Tally ct w.frames hs w) (f : F) :
    Ensures (filedup f) w fun _ w' ↦ Tally ct w'.frames hs w' ∧ w'.proc = w.proc ∧ w'.pt = w.pt :=
  fileTally_of h (filedup_tally f) ((filedup_tab w f).mono fun _ _ h' ↦ h'.proc)

omit [DecidableEq P] in
/-- `fileclose` keeps the tally. -/
theorem fileclose_frames (h : Tally ct w.frames hs w) (f : F) :
    Ensures (fileclose f) w fun _ w' ↦ Tally ct w'.frames hs w' ∧ w'.proc = w.proc ∧ w'.pt = w.pt :=
  fileTally_of h (fileclose_tally f) ((fileclose_tab w f).mono fun _ _ h' ↦ h'.proc)

/-- What the loops over the descriptors of a process leave as it is. -/
structure Refiled (c : P) (w w' : World P O F) : Prop where
  others : ∀ q, q ≠ c → w'.proc q = w.proc q
  mine : w'.proc c = { w.proc c with ofile := (w'.proc c).ofile }
  pt : w'.pt = w.pt

omit [DecidableEq P] [DecidableEq F] in
/-- No descriptor changes. -/
theorem Refiled.refl (c : P) (w : World P O F) : Refiled c w w := ⟨fun _ _ ↦ rfl, rfl, rfl⟩

omit [DecidableEq P] [DecidableEq F] in
/-- Changes of descriptors compose. -/
theorem Refiled.trans {c : P} {w' w'' : World P O F} (h : Refiled c w w') (h' : Refiled c w' w'') :
    Refiled c w w'' := by
  refine ⟨fun q hq ↦ by rw [h'.others q hq, h.others q hq], ?_, by rw [h'.pt, h.pt]⟩
  rw [h'.mine, h.mine]

omit [DecidableEq F] in
/-- A descriptor write keeps the tally. -/
theorem setFd_tally (h : Tally ct w.frames hs w) (p : P) (fd : Fin nofile) (x : Option F) :
    Ensures (setProc p fun q ↦ { q with ofile := update q.ofile fd x }) w fun _ w' ↦
      Tally ct w'.frames hs w' ∧ Refiled p w w' := by
  refine (setProc_tally p ?_ h).mono ?_
  · exact fun _ ↦ ⟨rfl, rfl, rfl⟩
  rintro _ w' ⟨h', hproc', hpt'⟩
  refine ⟨h', fun q hq ↦ ?_, ?_, hpt'⟩
  · rw [hproc', update_of_ne hq]
  · rw [hproc', update_self]

private theorem forkFiles_tally (h : Tally ct w.frames hs w) (p c : P) (fds : List (Fin nofile)) :
    Ensures (forEach (forkFile p c) fds) w fun _ w' ↦
      Tally ct w'.frames hs w' ∧ Refiled c w w' := by
  refine ensures_forEach (fun _ w' ↦ Tally ct w'.frames hs w' ∧ Refiled c w w') ?_
    ⟨h, .refl c w⟩
  rintro fd fds w1 ⟨h1, hr1⟩
  unfold forkFile
  rw [ensures_bind, ensures_get]
  split
  · exact ensures_pure.mpr ⟨h1, hr1⟩
  · rename_i f _
    apply (filedup_frames h1 f).bind
    rintro _ w2 ⟨h2, hproc2, hpt2⟩
    apply (setFd_tally h2 c fd (some f)).mono
    rintro _ w3 ⟨h3, hr3⟩
    have hr2 : Refiled c w1 w2 := ⟨fun q _ ↦ by rw [hproc2], by rw [hproc2], hpt2⟩
    exact ⟨h3, (hr1.trans hr2).trans hr3⟩

private theorem exitFiles_tally (h : Tally ct w.frames hs w) (p : P) (fds : List (Fin nofile)) :
    Ensures (forEach (exitFile p) fds) w fun _ w' ↦
      Tally ct w'.frames hs w' ∧ Refiled p w w' := by
  refine ensures_forEach (fun _ w' ↦ Tally ct w'.frames hs w' ∧ Refiled p w w') ?_
    ⟨h, .refl p w⟩
  rintro fd fds w1 ⟨h1, hr1⟩
  unfold exitFile
  rw [ensures_bind, ensures_get]
  split
  · exact ensures_pure.mpr ⟨h1, hr1⟩
  · rename_i f _
    apply (fileclose_frames h1 f).bind
    rintro _ w2 ⟨h2, hproc2, hpt2⟩
    apply (setFd_tally h2 p fd none).mono
    rintro _ w3 ⟨h3, hr3⟩
    have hr2 : Refiled p w1 w2 := ⟨fun q _ ↦ by rw [hproc2], by rw [hproc2], hpt2⟩
    exact ⟨h3, (hr1.trans hr2).trans hr3⟩

end

/-! ### Fork -/

omit [DecidableEq P] in
/-- Which tables there are. -/
theorem World.there_eq {w' : World P O F} (h : w'.pt = w.pt) (t : Tbl P) :
    w'.there t = w.there t := by
  rw [World.there, World.there, h]

omit [DecidableEq P] in
/-- The entries of equal tables. -/
theorem World.leaf_eq {w' : World P O F} (h : w'.pt = w.pt) : w'.leaf = w.leaf := by
  unfold World.leaf
  rw [h]

/-- Trap frames stay. -/
theorem Filled.frames {p c : P} {w' : World P O F} (h : Filled p c w w') :
    w'.frames = w.frames := by
  obtain ⟨sz, vmas, hproc, -⟩ := h.proc
  funext q
  by_cases hq : q = c
  · rw [World.frames, World.frames, hproc, hq, update_self]
  · rw [World.frames, World.frames, hproc, update_of_ne hq]

section

variable [Fintype P] (hP : Fintype.card P ≤ nproc) [DecidableEq O] [DecidableEq F]

include hP

/-- `fork` gives the child what a process owns, or leaves its slot vacant. -/
theorem fork_tally (b : Boot P) {p c : P} (hpc : p ≠ c) (h : Tally ct w.frames [] w)
    (halive : Alive w p) (hsz : (w.proc p).sz ≤ maxuva) (hunused : (w.proc c).state = .unused)
    (hv : Vacant c w) (hi : w.there (.image c) = false) (hvmas : ∀ i, (w.proc c).vmas i = none)
    (hszc : (w.proc c).sz ≤ maxuva) (hobjs : NoObjects ct) :
    Ensures (fork b p c) w fun ok w' ↦ Tally ct w'.frames [] w' ∧ (w'.proc c).sz ≤ maxuva ∧
      (ok = true → (w'.proc c).state = .live ∧ (w'.proc c).kstack ≠ 0 ∧
        kstackPage ∉ b.kmaps.map Prod.fst) ∧ (ok = false → Vacant c w') := by
  have hct := hv.untold h
  unfold fork
  apply (setHeld_tally true h).bind
  rintro _ w1 ⟨h1, hproc1, hpt1⟩
  have hv1 : Vacant c w1 := hv.pt hpt1 (by rw [hproc1]) (by rw [hproc1])
  apply ((allocproc_spec b w1 c (by rw [hproc1, hunused])).and (allocproc_tally hP b h1 hv1
    (by rwa [hproc1]) (by rwa [hproc1]) hobjs)).bind
  rintro ok w2 ⟨⟨honly2, hnew2, -⟩, h2, hsz2, hstack2, hvacant2⟩
  rw [ensures_ite]
  refine ⟨fun hok ↦ ?_, fun hok ↦ ?_⟩
  swap
  · simp only [ensures_bind, ensures_pure]
    apply (setHeld_tally false h2).mono
    rintro _ w3 ⟨h3, hproc3, hpt3⟩
    rw [hproc3]
    exact ⟨h3, hsz2, by rintro ⟨⟩, fun _ ↦
      (hvacant2 (by simpa using hok)).pt hpt3 (by rw [hproc3]) (by rw [hproc3])⟩
  have hborn := hnew2 hok
  obtain ⟨hk2, hmaps⟩ := hstack2 hok
  have hp2 : w2.proc p = w.proc p := by rw [honly2.proc p hpc, hproc1]
  have hthere2 : ∀ t, t ≠ .user c → t ≠ .kern c → w2.there t = w.there t := by
    intro t hu hk
    rw [honly2.there t hu hk, World.there_eq hpt1]
  have hkp2 : w2.there (.kern p) = true := by
    rw [hthere2 _ (by simp) (by simpa using hpc), halive.kern]
  have hszp2 : (w2.proc p).sz ≤ maxuva := by rwa [hp2]
  apply (forkCopy_tally hP hpc h2 (fun _ ↦ by simp [nproc]) (by rw [hp2]; exact halive.space.layout)
    hszp2 hborn (by rw [hthere2 _ (by simp) (by simp), hi]) hkp2 hobjs
    fun n ↦ hct _ (.inr (.inl rfl))).bind
  rintro ok w3 ⟨h3, hfilled3⟩
  obtain ⟨sz, vmas, hproc3, hsize, hlay3⟩ := hfilled3.proc
  rw [← hfilled3.frames] at h3
  have hc3 : w3.proc c = { w2.proc c with sz := sz, vmas := vmas } := by
    rw [hproc3, update_self]
  have hp3 : w3.proc p = w2.proc p := by rw [hproc3, update_of_ne hpc]
  have hsz3 : sz ≤ maxuva := by
    rcases hsize with rfl | rfl
    · exact hsz2
    · exact hszp2
  have hkp3 : w3.there (.kern p) = true := by rw [hfilled3.there, hkp2]
  rw [ensures_ite]
  constructor
  · intro _
    apply (forkFiles_tally h3 p c _).bind
    rintro _ w4 ⟨h4, hr4⟩
    refine (setProc_tally c ?_ h4).bind ?_
    · exact fun _ ↦ ⟨rfl, rfl, rfl⟩
    rintro _ w5 ⟨h5, hproc5, hpt5⟩
    apply (setHeld_tally false h5).bind
    rintro _ w6 ⟨h6, hproc6, hpt6⟩
    have hp6 : w6.proc p = w2.proc p := by
      rw [hproc6, hproc5, update_of_ne hpc, hr4.others p hpc, hp3]
    have hkp6 : w6.there (.kern p) = true := by
      rw [World.there_eq hpt6, World.there_eq hpt5, World.there_eq hr4.pt, hkp3]
    simp only [ensures_bind, ensures_pure]
    apply (forkSync_tally h6 hkp6 (by rwa [hp6])).mono
    rintro _ w7 ⟨h7, -, hproc7, -⟩
    rw [← World.frames_eq hproc7] at h7
    rw [hproc7, hproc6, hproc5, update_self, hr4.mine, hc3]
    exact ⟨h7, hsz3, fun _ ↦ ⟨rfl, hk2, hmaps⟩, by rintro ⟨⟩⟩
  · intro _
    apply (forkSync_tally h3 hkp3 (by rwa [hp3])).bind
    rintro _ w4 ⟨h4, -, hproc4, hthere4⟩
    rw [← World.frames_eq hproc4] at h4
    have hc4 : w4.proc c = { w2.proc c with sz := sz, vmas := vmas } := by rw [hproc4, hc3]
    have hu4 : w4.there (.user c) = true := by
      rw [hthere4, hfilled3.there, hborn.user.there]
    have hk4 : w4.there (.kern c) = true := by
      rw [hthere4, hfilled3.there, hborn.kern.there]
    refine (freeproc_tally hP h4 (b := b) (p := c) ?_ (fun _ ↦ hmaps) ?_ ?_ (.inl ⟨hu4, hk4⟩) hobjs
      hct).bind ?_
    · rw [hc4]
      exact hsz3
    · rw [hc4, hk4]
      rintro (hzero | hfalse)
      · exact absurd hzero hk2
      · cases hfalse
    · rw [hc4]
      exact hlay3
    rintro _ w5 ⟨h5, hvacant5, hsz5⟩
    simp only [ensures_bind, ensures_pure]
    apply (setHeld_tally false h5).mono
    rintro _ w6 ⟨h6, hproc6, hpt6⟩
    rw [hproc6, hsz5]
    exact ⟨h6, Nat.zero_le _, by rintro ⟨⟩,
      fun _ ↦ hvacant5.pt hpt6 (by rw [hproc6]) (by rw [hproc6])⟩

/-! ### Exit and wait -/

/-- `exit` gives the mappings up and keeps the rest of the slot. -/
theorem exit_tally (b : Boot P) {p : P} (h : Tally ct w.frames hs w) (halive : Alive w p)
    (hobjs : NoObjects ct) (hct : ∀ n, ct (.user p n) = none) :
    Ensures (exit b p) w fun _ w' ↦ Tally ct w'.frames hs w' ∧
      (∀ q, (w'.proc q).sz = (w.proc q).sz ∧ (w'.proc q).kstack = (w.proc q).kstack ∧
        (w'.proc q).trapframe = (w.proc q).trapframe) ∧
      (∀ t, w'.there t = w.there t) ∧ (w'.proc p).state = .zombie ∧
      ∀ q, q ≠ p → (w'.proc q).state = (w.proc q).state ∧ w'.leaf (.kern q) = w.leaf (.kern q) := by
  unfold exit
  rw [ensures_ite]
  refine ⟨fun _ ↦ ensures_halt, fun _ ↦ ?_⟩
  apply (exitFiles_tally h p _).bind
  rintro _ w1 ⟨h1, hr1⟩
  have hu1 : w1.there (.user p) = true := by rw [World.there_eq hr1.pt, halive.user]
  have hk1 : w1.there (.kern p) = true := by rw [World.there_eq hr1.pt, halive.kern]
  have hlay1 : Layout (w1.proc p).sz (w1.proc p).vmas := by
    rw [hr1.mine]
    exact halive.space.layout
  apply ((vmaDestroyAll_slots (.inl ⟨hu1, hk1⟩)).and (vmaDestroyAll_tally hP h1 hlay1
    (.inl ⟨hu1, hk1⟩) hobjs hct)).bind
  rintro _ w2 ⟨⟨⟨ns, hslots⟩, -⟩, h2⟩
  have hp2 : w2.proc p = { w.proc p with ofile := (w1.proc p).ofile, vmas := fun _ ↦ none } := by
    rw [hslots.proc, update_self, hr1.mine]
  have hq2 : ∀ q, q ≠ p → w2.proc q = w.proc q := by
    intro q hq
    rw [hslots.proc, update_of_ne hq, hr1.others q hq]
  rw [ensures_bind, ensures_modify]
  set w3 : World P O F := { w2 with
    proc := fun q ↦
      if (w2.proc q).parent = some p then { w2.proc q with parent := some b.init }
      else w2.proc q } with hw3
  have hsame : ∀ q, (w3.proc q).kstack = (w2.proc q).kstack ∧
      (w3.proc q).vmas = (w2.proc q).vmas ∧ (w3.proc q).trapframe = (w2.proc q).trapframe ∧
      (w3.proc q).sz = (w2.proc q).sz ∧ (w3.proc q).state = (w2.proc q).state := by
    intro q
    rw [hw3]
    dsimp only
    split_ifs
    · exact ⟨rfl, rfl, rfl, rfl, rfl⟩
    · exact ⟨rfl, rfl, rfl, rfl, rfl⟩
  have hframes2 : w2.frames = w1.frames := by
    funext q
    by_cases hq : q = p
    · rw [World.frames, World.frames, hq, hslots.proc, update_self]
    · rw [World.frames, World.frames, hslots.proc, update_of_ne hq]
  have h3 : Tally ct w3.frames hs w3 := by
    rw [show w3.frames = w1.frames from (funext fun q ↦ (hsame q).2.2.1).trans hframes2]
    exact h2.alike ⟨rfl, rfl, fun q ↦ (hsame q).1, fun q ↦ (hsame q).2.1⟩ rfl rfl
  have hthere3 : ∀ t, w3.there t = w.there t := fun t ↦
    (hslots.there t).trans (World.there_eq hr1.pt t)
  have hleaf3 : ∀ q, q ≠ p → w3.leaf (.kern q) = w.leaf (.kern q) := by
    intro q hq
    change w2.leaf (.kern q) = _
    rw [hslots.leaf, Leaves.unmap_ne _ _ _ (by simp) (by simpa using hq), World.leaf_eq hr1.pt]
  clear_value w3
  refine (setProc_tally p ?_ h3).mono ?_
  · exact fun _ ↦ ⟨rfl, rfl, rfl⟩
  rintro _ w4 ⟨h4, hproc4, hpt4⟩
  refine ⟨h4, fun q ↦ ?_, fun t ↦ (World.there_eq hpt4 t).trans (hthere3 t), ?_, fun q hq ↦ ?_⟩
  · by_cases hq : q = p
    · subst hq
      rw [hproc4, update_self]
      dsimp only
      rw [(hsame q).2.2.2.1, (hsame q).1, (hsame q).2.2.1, hp2]
      exact ⟨rfl, rfl, rfl⟩
    · rw [hproc4, update_of_ne hq, (hsame q).2.2.2.1, (hsame q).1, (hsame q).2.2.1,
        hq2 q hq]
      exact ⟨rfl, rfl, rfl⟩
  · rw [hproc4, update_self]
  · rw [hproc4, update_of_ne hq, (hsame q).2.2.2.2, hq2 q hq, World.leaf_eq hpt4]
    exact ⟨rfl, hleaf3 q hq⟩

/-- `wait` leaves the slot of the zombie vacant, also when the status is not stored. -/
theorem waitFor_tally (b : Boot P) {p c : P} (hpc : p ≠ c) (touched : List Nat) (stored : Bool)
    (h : Tally ct w.frames [] w) (halive : Alive w p) (hszc : (w.proc c).sz ≤ maxuva)
    (hmaps : (w.proc c).kstack ≠ 0 → kstackPage ∉ b.kmaps.map Prod.fst)
    (hnull : (w.proc c).kstack = 0 ∨ w.there (.kern c) = false → w.leaf (.kern c) 0 = none)
    (hvmas : ∀ i, (w.proc c).vmas i = none) (hobjs : NoObjects ct)
    (hct : ∀ z : Owner P O, z.Of c → ct z = none) :
    Ensures (waitFor b p c touched stored) w fun _ w' ↦ Tally ct w'.frames [] w' ∧
      Vacant c w' ∧ (w'.proc c).sz = 0 ∧ (∀ q, q ≠ c → w'.proc q = w.proc q) ∧
      (∀ t, t ≠ .user c → t ≠ .kern c → w'.there t = w.there t) ∧
      ∀ t, t ≠ .user p → t ≠ .kern p → t ≠ .user c → t ≠ .kern c → w'.leaf t = w.leaf t := by
  let inv (w' : World P O F) : Prop := Tally ct w'.frames [] w' ∧ Alive w' p ∧ Vacant c w' ∧
    ((w'.proc c).sz = 0 ∧ ∀ i, (w'.proc c).vmas i = none) ∧
    (∀ q, q ≠ c → w'.proc q = w.proc q) ∧
    (∀ t, t ≠ .user c → t ≠ .kern c → w'.there t = w.there t) ∧
    ∀ t, t ≠ .user p → t ≠ .kern p → t ≠ .user c → t ≠ .kern c → w'.leaf t = w.leaf t
  have honly : ∀ {w1 w2 : World P O F}, Only c w1 w2 →
      ((∀ q, q ≠ c → w1.proc q = w.proc q) ∧
        (∀ t, t ≠ .user c → t ≠ .kern c → w1.there t = w.there t) ∧
        ∀ t, t ≠ .user p → t ≠ .kern p → t ≠ .user c → t ≠ .kern c → w1.leaf t = w.leaf t) →
      (∀ q, q ≠ c → w2.proc q = w.proc q) ∧
        (∀ t, t ≠ .user c → t ≠ .kern c → w2.there t = w.there t) ∧
        ∀ t, t ≠ .user p → t ≠ .kern p → t ≠ .user c → t ≠ .kern c → w2.leaf t = w.leaf t := by
    rintro w1 w2 h' ⟨hproc, hthere, hleaf⟩
    refine ⟨fun q hq ↦ (h'.proc q hq).trans (hproc q hq),
      fun t hu hk ↦ (h'.there t hu hk).trans (hthere t hu hk), fun t hup hkp huc hkc ↦ ?_⟩
    rw [h'.leaf t huc hkc, hleaf t hup hkp huc hkc]
  have haliveOnly : ∀ {w1 w2 : World P O F}, Alive w1 p → Only c w1 w2 → Alive w2 p :=
    fun h' honly ↦ h'.same (honly.same hpc)
  unfold waitFor
  apply (setHeld_tally true h).bind
  rintro _ w1 ⟨h1, hproc1, hpt1⟩
  have honly1 : Only c w w1 :=
    ⟨fun q _ ↦ by rw [hproc1], fun t _ _ ↦ by rw [World.leaf_eq hpt1],
      fun t _ _ ↦ World.there_eq hpt1 t⟩
  have hkeep1 := honly honly1 ⟨fun _ _ ↦ rfl, fun _ _ _ ↦ rfl, fun _ _ _ _ _ ↦ rfl⟩
  apply ((freeprocvm_only b w1 c).and (freeprocvm_tally hP h1 (b := b) (p := c) (by rwa [hproc1])
    (by rwa [hproc1]) (by rwa [hproc1, World.there_eq hpt1, World.leaf_eq hpt1]) hct)).bind
  rintro _ w2 ⟨honly2, h2, hvacant2, hproc2⟩
  have hinv2 : inv w2 := by
    refine ⟨h2, haliveOnly (haliveOnly halive honly1) honly2, hvacant2, ?_, honly honly2 hkeep1⟩
    rw [hproc2, update_self, hproc1]
    exact ⟨rfl, hvmas⟩
  rw [ensures_bind]
  have hfaults : Ensures (forEach (fun a ↦ do let _ ← vmResolveFault p a .write) touched) w2
      fun _ w' ↦ inv w' := by
    apply ensures_forEach (fun _ w' ↦ inv w') _ hinv2
    rintro a _ w3 ⟨h3, halive3, hvacant3, hempty3, hproc3, hthere3, hleaf3⟩
    simp only [ensures_bind, ensures_pure]
    apply ((vmResolveFault_own a .write halive3.space).and ((vmResolveFault_core w3 p a .write).and
      (vmResolveFault_tally hP h3 (fun _ ↦ by simp [nproc]) halive3 a .write))).mono
    rintro _ w4 ⟨⟨hown4, hspace4⟩, hcore4, h4⟩
    rw [← World.frames_eq hcore4.proc] at h4
    refine ⟨h4, ⟨by rw [hown4.there, halive3.user], by rw [hown4.there, halive3.kern], hspace4⟩,
      hvacant3.congr (hown4.there _) (hown4.there _) (by rw [hown4.leaf _ (by simp) (by
        simpa using Ne.symm hpc)]) (by rw [hcore4.proc]) (by rw [hcore4.proc]), by rwa
          [hcore4.proc], fun q hq ↦ by rw [hcore4.proc, hproc3 q hq],
      fun t hu hk ↦ by rw [hown4.there, hthere3 t hu hk],
      fun t hup hkp huc hkc ↦ by rw [hown4.leaf t hup hkp, hleaf3 t hup hkp huc hkc]⟩
  apply hfaults.mono
  rintro _ w3 hinv3
  have hfree : Ensures (doIf stored (freeproc b c)) w3 fun _ w' ↦ Tally ct w'.frames [] w' ∧
      Vacant c w' ∧ (w'.proc c).sz = 0 ∧ (∀ q, q ≠ c → w'.proc q = w.proc q) ∧
      (∀ t, t ≠ .user c → t ≠ .kern c → w'.there t = w.there t) ∧
      ∀ t, t ≠ .user p → t ≠ .kern p → t ≠ .user c → t ≠ .kern c → w'.leaf t = w.leaf t := by
    obtain ⟨h3, -, hvacant3, ⟨hsz3, hvmas3⟩, hkeep3⟩ := hinv3
    rw [ensures_doIf]
    refine ⟨fun _ ↦ ?_, fun _ ↦ ⟨h3, hvacant3, hsz3, hkeep3⟩⟩
    have hlay3 : Layout (w3.proc c).sz (w3.proc c).vmas := by
      rw [funext hvmas3]
      exact .empty _
    apply ((freeproc_only b w3 c).and (freeproc_tally hP h3 (b := b) (p := c)
      (by rw [hsz3]; exact Nat.zero_le _) (fun hne ↦ absurd hvacant3.kstack hne)
      (fun _ ↦ hvacant3.entry) hlay3 (.inr hvmas3) hobjs hct)).mono
    rintro _ w4 ⟨honly4, h4, hvacant4, hsz4⟩
    exact ⟨h4, hvacant4, hsz4, honly honly4 hkeep3⟩
  apply hfree.bind
  rintro _ w4 ⟨h4, hvacant4, hsz4, hproc4, hthere4, hleaf4⟩
  simp only [ensures_bind, ensures_pure]
  apply (setHeld_tally false h4).mono
  rintro _ w5 ⟨h5, hproc5, hpt5⟩
  rw [hproc5, World.leaf_eq hpt5]
  exact ⟨h5, hvacant4.pt hpt5 (by rw [hproc5]) (by rw [hproc5]), hsz4, hproc4,
    fun t hu hk ↦ (World.there_eq hpt5 t).trans (hthere4 t hu hk), hleaf4⟩

end

/-! ### The first process -/

private theorem uvmStackInit_at (w : World P O F) (t : Tbl P) :
    Ensures (uvmStackInit t) w fun _ w' ↦ At t w w' := by
  unfold uvmStackInit
  apply ensures_at_bind ((kallocPage_quiet w).mono fun _ _ h ↦ h.at t)
  intro r w1
  cases r with
  | none =>
    rw [ensures_pure]
    exact .refl t w1
  | some pa =>
    apply ensures_at_bind ((zeroPage_quiet w1 pa).mono fun _ _ h ↦ h.at t)
    intro _ w2
    apply ensures_at_bind (mappages_at w2 t _ pa _)
    intro ok w3
    rw [ensures_ite, ensures_pure]
    refine ⟨fun _ ↦ .refl t w3, fun _ ↦ ?_⟩
    simp only [ensures_bind, ensures_pure]
    exact (kfreePage_quiet w3 pa).mono fun _ _ h ↦ h.at t

section

variable [Fintype P] (hP : Fintype.card P ≤ nproc) [DecidableEq O] [DecidableEq F]

include hP

/-- The first process has its page of code and its stack for itself. -/
theorem userinit_tally (b : Boot P) (code : Nat → UInt8) (h : Tally ct w.frames [] w)
    (hunused : (w.proc b.init).state = .unused) (hv : Vacant b.init w)
    (hvmas : ∀ i, (w.proc b.init).vmas i = none) (hsz : (w.proc b.init).sz ≤ maxuva)
    (hobjs : NoObjects ct) :
    Ensures (userinit b code) w fun _ w' ↦ Tally ct w'.frames [] w' ∧
      (w'.proc b.init).sz ≤ maxuva ∧ (w'.proc b.init).kstack ≠ 0 ∧
      kstackPage ∉ b.kmaps.map Prod.fst ∧ (w'.proc b.init).state = .live := by
  unfold userinit
  apply ((allocproc_spec b w b.init hunused).and (allocproc_tally hP b h hv hvmas hsz hobjs)).bind
  rintro ok w1 ⟨⟨-, hnew, -⟩, h1, -, hstack, -⟩
  rw [ensures_ite]
  refine ⟨fun hok ↦ ?_, fun _ ↦ ensures_halt⟩
  have hborn := hnew hok
  obtain ⟨hk1, hmaps⟩ := hstack hok
  apply (kallocPage_tally h1).bind
  rintro r w2 ⟨hq2, -, hr2⟩
  cases r with
  | none => exact ensures_halt
  | some pa =>
    obtain ⟨h2, -, hone2⟩ := hr2
    rw [ensures_bind, ensures_modify, ensures_bind]
    set w3 : World P O F := { w2 with mem := update w2.mem pa code } with hw3
    have hq23 : Quiet w2 w3 := .of_eq rfl rfl rfl rfl rfl
    have h3 := h2.write hone2 hq23 rfl fun c hc ↦ update_of_ne hc ..
    have hq3 := hq2.trans hq23
    have hone3 : w3.quota pa = 1 := hone2
    clear_value w3
    have hleaf3 : ∀ n, UserPage n → w3.leaf (.user b.init) n = none := by
      intro n hn
      rw [hq3.leaf]
      exact hborn.user.leaf n hn
    have hsole3 : Sole (.user b.init) w3 := by
      intro n e hn he
      rw [hleaf3 n hn] at he
      cases he
    have hu3 : w3.there (.user b.init) = true := by rw [hq3.core.there, hborn.user.there]
    apply ((mappages_at w3 (.user b.init) 0 pa _).and (mapNew_tally h3 _ (t := .user b.init) trivial
      (by unfold UserPage; decide) hu3 hone3 hsole3)).mono
    rintro ok w4 ⟨hat4, hu4, hsole4, -, h4⟩
    rw [ensures_ite]
    refine ⟨fun hok4 ↦ ?_, fun _ ↦ ensures_halt⟩
    rw [if_pos hok4] at h4
    apply ((uvmStackInit_at w4 (.user b.init)).and (uvmStackInit_filling hP
      (⟨h4.1, hu4, hsole4⟩ : Filling ct w1.frames [] (.user b.init) w4) trivial)).bind
    rintro ok w5 ⟨hat5, -, h5⟩
    rw [ensures_ite]
    refine ⟨fun hok5 ↦ ?_, fun _ ↦ ensures_halt⟩
    rw [if_pos hok5] at h5
    have hproc5 : w5.proc = w1.proc := by rw [hat5.proc, hat4.proc, hq3.core.proc]
    have hk5 : w5.there (.kern b.init) = true := by
      rw [hat5.there _ (by simp), hat4.there _ (by simp), hq3.core.there, hborn.kern.there]
    have htally5 := h5.1.tally
    rw [← World.frames_eq hproc5] at htally5
    refine (setProc_tally b.init ?_ htally5).bind ?_
    · exact fun _ ↦ ⟨rfl, rfl, rfl⟩
    rintro _ w6 ⟨h6, hproc6, hpt6⟩
    have hself6 : w6.proc b.init = { w1.proc b.init with sz := pgsize, state := .live } := by
      rw [hproc6, update_self, hproc5]
    have hk6 : w6.there (.kern b.init) = true := by rw [World.there_eq hpt6, hk5]
    have hne : Tbl.user b.init ≠ Tbl.kern b.init := by simp
    apply ((upg2ukpg_spec w6 hne (pages 0 pgsize)).and (upg2ukpg_tally h6 _ (pages 0 pgsize) hk6
      fun n hn ↦ userPage_of_mem_pages (by decide) (by decide) hn)).bind
    rintro ok w7 ⟨⟨_, heff7, -⟩, h7, -⟩
    rw [ensures_ite]
    refine ⟨fun _ ↦ ?_, fun _ ↦ ensures_halt⟩
    have hk7 : w7.there (.kern b.init) = true := by rw [heff7.core.there, hk6]
    unfold uvmStackSync
    apply ((upg2ukpg_spec w7 hne stackPages).and (upg2ukpg_tally h7 _ stackPages hk7
      fun n hn ↦ userPage_of_mem_pages (by decide) le_rfl hn)).bind
    rintro ok w8 ⟨⟨_, heff8, -⟩, h8, -⟩
    rw [ensures_ite, ensures_pure]
    refine ⟨fun _ ↦ ?_, fun _ ↦ ensures_halt⟩
    have hproc8 : w8.proc = w6.proc := by rw [heff8.core.proc, heff7.core.proc]
    rw [← World.frames_eq hproc8] at h8
    rw [hproc8, hself6]
    exact ⟨h8, show pgsize ≤ maxuva by decide, hk1, hmaps, rfl⟩

end

/-! ### Exec -/

/-- The image and the kernel table of a process change, and nothing else that a process sees. -/
structure Aside (p : P) (w w' : World P O F) : Prop where
  proc : w'.proc = w.proc
  there : ∀ t, t ≠ .image p → w'.there t = w.there t
  leaf : ∀ t, t ≠ .image p → t ≠ .kern p → w'.leaf t = w.leaf t

omit [DecidableEq P] in
/-- Steps aside compose. -/
theorem Aside.trans {p : P} {w' w'' : World P O F} (h : Aside p w w') (h' : Aside p w' w'') :
    Aside p w w'' :=
  ⟨h'.proc.trans h.proc, fun t ht ↦ (h'.there t ht).trans (h.there t ht),
    fun t hi hk ↦ (h'.leaf t hi hk).trans (h.leaf t hi hk)⟩

omit [DecidableEq P] in
private theorem At.aside {p : P} {w' : World P O F} (h : At (.image p) w w') : Aside p w w' :=
  ⟨h.proc, h.there, fun t hi _ ↦ h.leaf t hi⟩

omit [DecidableEq P] in
private theorem Eff.aside {p : P} {w' : World P O F} {L : Leaves P} (h : Eff w w' L)
    (hL : ∀ t, t ≠ .kern p → L t = w.leaf t) : Aside p w w' :=
  ⟨h.core.proc, fun t _ ↦ h.core.there t, fun t _ hk ↦ by rw [h.leaf, hL t hk]⟩

omit [DecidableEq P] in
private theorem Quiet.aside {w' : World P O F} (p : P) (h : Quiet w w') : Aside p w w' :=
  (h.at (.image p)).aside

/-- What is loaded, and what is left of an image that cannot be loaded, is aside. -/
theorem execLoad_aside (b : Boot P) (w : World P O F) (p : P) (headerOk : Bool) (segs : List Seg)
    (oldsz trapframe : Nat) :
    Ensures (execLoad b p headerOk segs oldsz trapframe) w fun _ w' ↦ Aside p w w' := by
  unfold execLoad
  apply (elock_quiet w).bind
  intro _ w1 hq1
  have h1 := hq1.aside p
  rw [ensures_ite, ensures_pure]
  refine ⟨fun _ ↦ h1, fun _ ↦ ?_⟩
  apply (procPagetable_spec b w1 (.image p) trapframe).bind
  rintro ok w2 ⟨hat2, hblank2⟩
  have h2 := h1.trans hat2.aside
  rw [ensures_ite, ensures_pure]
  refine ⟨fun hok ↦ ?_, fun _ ↦ h2⟩
  have hb2 := hblank2 hok
  have hbelow2 : Below (.image p) w2 0 := by
    intro n e hn he
    rw [hb2.leaf n hn] at he
    cases he
  apply (loadSegs_spec (.image p) segs hbelow2).bind
  rintro ⟨loaded, sz⟩ w3 ⟨hfill3, hbelow3⟩
  have h3 := h2.trans hfill3.at.aside
  dsimp only at hbelow3 ⊢
  rw [ensures_ite]
  constructor
  · intro _
    simp only [ensures_bind, ensures_pure]
    exact (procFreepagetable_at w3 (.image p) sz).mono fun _ _ h4 ↦ h3.trans h4.aside
  · intro hloaded
    rw [Bool.not_eq_false] at hloaded
    apply (uvmStackInit_spec (hbelow3 hloaded)).bind
    rintro ok w4 ⟨hfill4, -⟩
    have h4 := h3.trans hfill4.at.aside
    rw [ensures_ite]
    constructor
    · intro _
      simp only [ensures_bind, ensures_pure]
      apply (execStage_spec w4 p oldsz (pgroundup sz)).mono
      intro _ w5 heff5
      exact h4.trans (heff5.aside fun t ht ↦ Leaves.reload_ne _ ht _ _)
    · intro _
      simp only [ensures_bind, ensures_pure]
      exact (procFreepagetable_at w4 (.image p) _).mono fun _ _ h5 ↦ h4.trans h5.aside

section

variable [DecidableEq O] [DecidableEq F]

/-- What `exec` leaves of the records and of the tables when the new image takes over. -/
structure Replaced (p : P) (sz : Nat) (w w' : World P O F) : Prop where
  proc : ∃ vmas, w'.proc = update w.proc p { w.proc p with sz := sz, vmas := vmas }
  there : ∀ t, t ≠ .image p → t ≠ .user p → w'.there t = w.there t
  leaf : ∀ t, t ≠ .image p → t ≠ .user p → t ≠ .kern p → w'.leaf t = w.leaf t

private theorem execCommit_replaced {p : P} (hu : w.there (.user p) = true)
    (hk : w.there (.kern p) = true)
    (oldsz sz : Nat) : Ensures (execCommit p oldsz sz) w fun _ w' ↦ Replaced p sz w w' := by
  unfold execCommit
  apply (vmaDestroyAll_spec w p hu hk).bind
  rintro _ w1 ⟨ns, hslots, -⟩
  apply (swapTables_spec w1 p).bind
  rintro _ w2 ⟨hproc2, -, -, hrest2⟩
  have hset : Ensures (setProc p fun q ↦ { q with sz := sz }) w2 fun _ w' ↦
      w'.proc = update w2.proc p { w2.proc p with sz := sz } ∧ w'.pt = w2.pt := by
    unfold setProc
    rw [ensures_modify]
    exact ⟨rfl, rfl⟩
  apply hset.bind
  rintro _ w3 ⟨hproc3, hpt3⟩
  apply (procFreepagetable_at w3 (.image p) oldsz).mono
  intro _ w4 hat4
  refine ⟨⟨fun _ ↦ none, ?_⟩, fun t hi hu ↦ ?_, fun t hi hu hk ↦ ?_⟩
  · rw [hat4.proc, hproc3, hproc2, hslots.proc, update_self, update_idem]
  · rw [hat4.there t hi, World.there_eq hpt3, (hrest2 t hu hi).2, hslots.there]
  · rw [hat4.leaf t hi, World.leaf_eq hpt3, (hrest2 t hu hi).1, hslots.leaf,
      Leaves.unmap_ne _ _ _ hu hk]

variable [Fintype P] (hP : Fintype.card P ≤ nproc)

include hP

/-- A failed `exec` leaves everything as it is, up to the process's kernel table. -/
theorem exec_aside {fr : P → Option Nat} (h : Tally ct fr hs w) (b : Boot P) {p : P}
    (halive : Alive w p) (hi : w.there (.image p) = false) (hsz : (w.proc p).sz ≤ maxuva)
    (img : Image) :
    Ensures (exec b p img) w fun r w' ↦ (r = none → Aside p w w') ∧
      (r ≠ none → ∃ sz, sz ≤ maxuva ∧ Replaced p sz w w') := by
  rw [exec_eq, ensures_bind, ensures_get, ensures_bind]
  apply ((execLoad_aside b w p img.headerOk img.segs (w.proc p).sz _).and
    (execLoad_tally hP h b halive.kern hi _ _ hsz _)).mono
  rintro r w1 ⟨ha1, h1⟩
  cases r with
  | none =>
    rw [execRest, ensures_pure]
    exact ⟨fun _ ↦ ha1, fun hne ↦ absurd rfl hne⟩
  | some sz =>
    have hle : sz ≤ maxuva := h1.le
    unfold execRest execFinish
    apply (execArgs_quiet w1 p img.argv).bind
    intro r w2 hq2
    have ha2 := ha1.trans (hq2.aside p)
    cases r with
    | none =>
      apply (execRestore_spec w2 p (w.proc p).sz sz).bind
      intro _ w3 heff3
      have ha3 := ha2.trans (heff3.aside fun t ht ↦ Leaves.reload_ne _ ht _ _)
      simp only [ensures_bind, ensures_pure]
      apply (procFreepagetable_at w3 (.image p) sz).mono
      intro _ w4 hat4
      exact ⟨fun _ ↦ ha3.trans hat4.aside, fun hne ↦ absurd rfl hne⟩
    | some x =>
      simp only [ensures_bind, ensures_pure]
      apply (execCommit_replaced (by rw [ha2.there _ (by simp), halive.user])
        (by rw [ha2.there _ (by simp), halive.kern]) _ _).mono
      intro _ w3 htaken
      refine ⟨by rintro ⟨⟩, fun _ ↦ ⟨sz, hle, ?_, ?_, ?_⟩⟩
      · obtain ⟨vmas, hproc⟩ := htaken.proc
        exact ⟨vmas, by rw [hproc, ha2.proc]⟩
      · intro t hi hu
        rw [htaken.there t hi hu, ha2.there t hi]
      · intro t hi hu hk
        rw [htaken.leaf t hi hu hk, ha2.leaf t hi hk]

end

end Xv6K210.Vm
