import Xv6K210.Vm.ExecStages

/-!
# Making and freeing processes in the tally

A slot that is not in use owns no page. `allocproc` gives it a trap frame, two tables
and a kernel stack, or nothing; `freeprocvm` and `freeproc` take back what its owners have, however
far the slot was filled.
-/

namespace Xv6K210.Vm

open Xv6K210.Base Prog Function

variable {P O F : Type} [DecidableEq P] {ct : Owner P O → Option (Nat → UInt8)}
  {fr : P → Option Nat}
  {hs : List Nat} {w : World P O F}

omit [DecidableEq P] in
/-- The owners have the same pages, told by other data. -/
theorem Tally.recast {w' : World P O F} {fr' : P → Option Nat} (h : Tally ct fr hs w)
    (hquota : w'.quota = w.quota) (howns : w'.owns fr' = w.owns fr) (hobj : w'.obj = w.obj)
    (hplace : w'.place = w.place)
    (hstack : ∀ p, (w'.proc p).kstack = 0 ∨ (w'.proc p).kstack = kstackPage)
    (hmem : w'.mem = w.mem) : Tally ct fr' hs w' := by
  refine ⟨?_, ?_, h.few, ?_, ?_, ?_, ?_, hstack, ?_⟩
  · rw [hquota, howns]
    exact h.count
  · rw [howns]
    exact h.once
  · rw [howns]
    exact h.null
  · rw [hobj]
    exact h.keyed
  · rw [howns, hplace]
    exact h.member
  · rw [hplace]
    exact h.base
  · rw [howns, hmem]
    exact h.kept

/-! ### Slots -/

/-- The owners that are part of a process slot. -/
def Owner.Of (p : P) (z : Owner P O) : Prop :=
  z = .frame p ∨ z.table = some (.user p) ∨ z.table = some (.kern p)

/-- A slot without trap frame, tables and kernel stack. -/
structure Vacant (p : P) (w : World P O F) : Prop where
  user : w.there (.user p) = false
  kern : w.there (.kern p) = false
  entry : w.leaf (.kern p) 0 = none
  kstack : (w.proc p).kstack = 0
  frame : (w.proc p).trapframe = none

section

omit [DecidableEq P]

private theorem World.owns_root {t : Tbl P} (h : w.there t = false) :
    w.owns fr (.root t : Owner P O) = none := by
  simpa [World.there, World.owns] using h

/-- A vacant slot owns nothing. -/
theorem Vacant.owns {p : P} (h : Vacant p w) (htally : Tally ct w.frames hs w) {z : Owner P O}
    (hz : z.Of p) : w.owns w.frames z = none := by
  rcases hz with rfl | hz | hz
  · exact h.frame
  · exact htally.null _ (World.owns_root h.user) z hz
  · exact htally.null _ (World.owns_root h.kern) z hz

/-- Nothing is told of a vacant slot. -/
theorem Vacant.untold {p : P} (h : Vacant p w) (htally : Tally ct w.frames hs w) :
    ∀ z : Owner P O, z.Of p → ct z = none :=
  fun _ hz ↦ htally.ct_none (h.owns htally hz)

/-- A vacant slot depends on its tables. -/
theorem Vacant.congr {w' : World P O F} {p : P} (h : Vacant p w)
    (huser : w'.there (.user p) = w.there (.user p))
    (hkern : w'.there (.kern p) = w.there (.kern p)) (hleaf : w'.leaf (.kern p) = w.leaf (.kern p))
    (hkstack : (w'.proc p).kstack = (w.proc p).kstack)
    (hframe : (w'.proc p).trapframe = (w.proc p).trapframe) : Vacant p w' :=
  ⟨by rw [huser, h.user], by rw [hkern, h.kern], by rw [hleaf, h.entry], by rw [hkstack, h.kstack],
    by rw [hframe, h.frame]⟩

/-- A vacant slot with the same tables. -/
theorem Vacant.pt {w' : World P O F} {p : P} (h : Vacant p w) (hpt : w'.pt = w.pt)
    (hkstack : (w'.proc p).kstack = (w.proc p).kstack)
    (hframe : (w'.proc p).trapframe = (w.proc p).trapframe) : Vacant p w' := by
  refine h.congr ?_ ?_ ?_ hkstack hframe
  · rw [World.there, World.there, hpt]
  · rw [World.there, World.there, hpt]
  · unfold World.leaf
    rw [hpt]

end

/-- A change of a process that owners do not see. -/
theorem setProc_tally (p : P) {f : Proc P O F → Proc P O F}
    (hf : ∀ q, (f q).kstack = q.kstack ∧ (f q).vmas = q.vmas ∧ (f q).trapframe = q.trapframe)
    (h : Tally ct w.frames hs w) :
    Ensures (setProc p f) w fun _ w' ↦ Tally ct w'.frames hs w' ∧
      w'.proc = update w.proc p (f (w.proc p)) ∧ w'.pt = w.pt := by
  unfold setProc
  rw [ensures_modify]
  set w' : World P O F := { w with proc := update w.proc p (f (w.proc p)) } with hw'
  have hsame : ∀ q, (w'.proc q).kstack = (w.proc q).kstack ∧
      (w'.proc q).vmas = (w.proc q).vmas ∧ (w'.proc q).trapframe = (w.proc q).trapframe := by
    intro q
    by_cases hq : q = p
    · rw [hq, show w'.proc p = _ from update_self ..]
      exact hf (w.proc p)
    · rw [show w'.proc q = _ from update_of_ne hq ..]
      exact ⟨rfl, rfl, rfl⟩
  have hframes : w'.frames = w.frames := funext fun q ↦ (hsame q).2.2
  refine ⟨?_, rfl, rfl⟩
  rw [hframes]
  exact h.alike ⟨rfl, rfl, fun q ↦ (hsame q).1, fun q ↦ (hsame q).2.1⟩ rfl rfl

omit [DecidableEq P] in
/-- The frames of the processes are told apart from the rest of the slots. -/
theorem World.owns_frames {fr' : P → Option Nat} {z : Owner P O} {p : P}
    (hfr : ∀ q, q ≠ p → fr' q = fr q) (hz : z ≠ .frame p) : w.owns fr' z = w.owns fr z := by
  cases z with
  | frame q => exact hfr q fun hq ↦ hz (by rw [hq])
  | _ => rfl

section

variable [Fintype P] (hP : Fintype.card P ≤ nproc)

include hP

/-- The frame of a process is freed. -/
theorem freeFrame_tally {p : P} (h : Tally ct w.frames hs w)
    (hct : ct (.frame p) = none) :
    Ensures (forEach kfreePage (w.proc p).trapframe.toList) w fun _ w' ↦
      Quiet w w' ∧ Tally ct (update w.frames p none) hs w' := by
  cases hframe : (w.proc p).trapframe with
  | none =>
    rw [Option.toList_none, forEach, ensures_pure]
    refine ⟨.refl w, ?_⟩
    rw [show w.frames = update w.frames p none from ?_] at h
    · exact h
    · rw [← hframe]
      exact (update_eq_self p w.frames).symm
  | some pa =>
    have howns : w.owns w.frames (.frame p) = some pa := hframe
    have hlt : w.quota pa < 255 := h.quota_lt hP
    have hpos := h.quota_ne_zero howns
    rw [Option.toList_some, forEach, ensures_bind]
    apply (kfreePage_quota hpos (by omega)).mono
    rintro _ w1 ⟨hq, hquota, hmem⟩
    rw [forEach, ensures_pure]
    refine ⟨hq, h.lose (x := .frame p) (fun z hz ↦ ?_) howns ?_ (by rintro _ ⟨⟩) h.few
      (fun c ↦ ?_) ?_
      hq.alike.place ?_ hct hmem⟩
    · rw [hq.owns]
      exact World.owns_frames (fun q hne ↦ update_of_ne hne ..) hz
    · exact update_self ..
    · rw [hquota]
      by_cases hc : c = pa
      · rw [hc, update_self, List.count_singleton_self]
        omega
      · rw [update_of_ne hc, List.count_singleton, if_neg]
        · rfl
        · rw [beq_iff_eq]
          exact Ne.symm hc
    · rw [hq.obj]
      exact h.keyed
    · intro q
      rw [hq.alike.kstack]
      exact h.stack q

omit [Fintype P] hP in
private theorem freewalk_gone (w : World P O F) (t : Tbl P) :
    Ensures (freewalk t) w fun _ w' ↦ w'.pt t = .null := by
  unfold freewalk setPt
  simp only [ensures_bind, ensures_get, ensures_ite, ensures_modify]
  refine ⟨fun _ ↦ ?_, fun _ ↦ ensures_halt⟩
  exact (kfreePages_quiet w _).mono fun _ _ _ ↦ update_self ..

omit [Fintype P] hP in
/-- `proc_freekpagetable` leaves no table. -/
theorem procFreekpagetable_gone (b : Boot P) (w : World P O F) (t : Tbl P) (kstack sz : Nat) :
    Ensures (procFreekpagetable b t kstack sz) w fun _ w' ↦ w'.pt t = .null := by
  unfold procFreekpagetable
  apply ensures_bind_of
  intro _ w1
  apply ensures_bind_of
  intro _ w2
  apply ensures_bind_of
  intro _ w3
  apply ensures_bind_of
  intro _ w4
  exact ensures_bind_of fun _ w5 ↦ freewalk_gone w5 t

omit [DecidableEq P] [Fintype P] hP in
/-- A missing table has no entry. -/
theorem World.gone {t : Tbl P} (h : w.pt t = .null) :
    w.there t = false ∧ ∀ n, w.leaf t n = none := by
  simp [World.there, World.leaf, h, PageTable.null]

/-- `proc_freekpagetable`. Only the entry of the stack is an owner; where the slot has no stack yet
the call unmaps page 0, which has no entry. -/
theorem procFreekpagetable_tally (h : Tally ct fr hs w) {b : Boot P} {p : P} {sz : Nat}
    (hsz : sz ≤ maxuva) (hmaps : (w.proc p).kstack ≠ 0 → kstackPage ∉ b.kmaps.map Prod.fst)
    (hnull : (w.proc p).kstack = 0 → w.leaf (.kern p) 0 = none)
    (hct : ∀ z, z.table = some (.kern p) → ct z = none) :
    Ensures (procFreekpagetable b (.kern p) (w.proc p).kstack sz) w fun _ w' ↦
      Tally ct fr hs w' := by
  have hkstack := h.stack p
  -- what the three calls that do not free keep
  let inv (w' : World P O F) : Prop := Tally ct fr hs w' ∧ w'.proc = w.proc ∧
    ((w.proc p).kstack = 0 → w'.leaf (.kern p) 0 = none)
  have hun : ∀ {w1 : World P O F} (ns : List Nat), inv w1 → (∀ n ∈ ns, ¬ w1.Owned (.kern p) n) →
      Ensures (uvmunmap (.kern p) ns false) w1 fun _ w' ↦ inv w' := by
    rintro w1 ns ⟨h1, hproc1, hnull1⟩ hns
    apply ((uvmunmap_spec w1 (.kern p) ns false).and (uvmunmap_unowned hP h1 hns)).mono
    rintro _ w2 ⟨heff, h2, -⟩
    refine ⟨h2, heff.core.proc.trans hproc1, fun hzero ↦ ?_⟩
    rw [heff.leaf, Leaves.drop_same]
    dsimp only
    rw [hnull1 hzero, ite_self]
  have huser : ∀ {w1 : World P O F} {fin : Nat} (start : Nat), inv w1 → start % pgsize = 0 →
      fin ≤ maxuva → ∀ n ∈ pages start fin, ¬ w1.Owned (.kern p) n :=
    fun _ h1 hstart hfin n hn ↦ h1.1.not_owned p (userPage_of_mem_pages hstart hfin hn)
  unfold procFreekpagetable
  refine (hun _ ⟨h, rfl, hnull⟩ fun n hn howned ↦ ?_).bind ?_
  · obtain ⟨hne, heq⟩ : (w.proc p).kstack ≠ 0 ∧ (w.proc p).kstack = n := howned
    rw [hkstack.resolve_left hne] at heq
    exact hmaps hne (by rwa [heq])
  intro _ w1 h1
  apply (hun _ h1 (huser 0 h1 (Nat.zero_mod _) (pgroundup_le (by decide) hsz))).bind
  intro _ w2 h2
  apply (hun _ h2 (huser _ h2 (by decide) le_rfl)).bind
  rintro _ w3 ⟨h3, hproc3, hnull3⟩
  refine (uvmunmap_tally hP h3 (fun n hn ↦ ?_) fun _ n _ ↦ hct _ (Tbl.table_entry _ n)).bind ?_
  · rw [List.mem_singleton] at hn
    subst hn
    by_cases hzero : (w.proc p).kstack = 0
    · left
      rw [hzero]
      exact hnull3 hzero
    · right
      refine ⟨fun _ ↦ ?_, fun _ ↦ rfl⟩
      change (w3.proc p).kstack ≠ 0 ∧ (w3.proc p).kstack = (w.proc p).kstack
      rw [hproc3]
      exact ⟨hzero, rfl⟩
  rintro _ w4 ⟨h4, -⟩
  exact (uvmfree_tally hP h4 (.inl rfl) hct).mono fun _ _ h5 ↦ h5.1

/-- `freeprocvm` takes back what the slot owns. -/
theorem freeprocvm_tally (h : Tally ct w.frames hs w) {b : Boot P} {p : P}
    (hsz : (w.proc p).sz ≤ maxuva)
    (hmaps : (w.proc p).kstack ≠ 0 → kstackPage ∉ b.kmaps.map Prod.fst)
    (hnull : (w.proc p).kstack = 0 ∨ w.there (.kern p) = false → w.leaf (.kern p) 0 = none)
    (hct : ∀ z : Owner P O, z.Of p → ct z = none) :
    Ensures (freeprocvm b p) w fun _ w' ↦ Tally ct w'.frames hs w' ∧ Vacant p w' ∧
      w'.proc = update w.proc p
        { w.proc p with trapframe := none, kstack := 0, sz := 0 } := by
  unfold freeprocvm
  rw [ensures_bind, ensures_get, ensures_bind]
  apply (freeFrame_tally hP h (hct _ (.inl rfl))).mono
  rintro _ w1 ⟨hq1, h1⟩
  set fr' := update w.frames p none with hfr'
  have huser : Ensures (doIf (w.pt (.user p)).root.isSome
      (procFreepagetable (.user p) (w.proc p).sz)) w1 fun _ w' ↦
        At (.user p) w1 w' ∧ w'.there (.user p) = false ∧ Tally ct fr' hs w' := by
    rw [ensures_doIf]
    refine ⟨fun _ ↦ ?_, fun hroot ↦ ⟨.refl _ _, ?_, h1⟩⟩
    · apply ((procFreepagetable_at w1 (.user p) _).and ((procFreepagetable_null w1 _ _).and
        (procFreepagetable_tally hP h1 (t := .user p) trivial hsz
          fun z hz ↦ hct z (.inr (.inl hz))))).mono
      rintro _ w2 ⟨hat, hnull, h2, -⟩
      exact ⟨hat, hnull, h2⟩
    · rw [hq1.core.there]
      simpa [World.there] using hroot
  apply huser.bind
  rintro _ w2 ⟨hat2, hu2, h2⟩
  have hproc2 : w2.proc = w.proc := hat2.proc.trans hq1.core.proc
  have hkern : Ensures (doIf (w.pt (.kern p)).root.isSome
      (procFreekpagetable b (.kern p) (w.proc p).kstack (w.proc p).sz)) w2 fun _ w' ↦
        At (.kern p) w2 w' ∧ (w'.there (.kern p) = false ∧ w'.leaf (.kern p) 0 = none) ∧
          Tally ct fr' hs w' := by
    have hentry : (w.proc p).kstack = 0 ∨ w.there (.kern p) = false →
        w2.leaf (.kern p) 0 = none := by
      rw [hat2.leaf _ (by simp), hq1.leaf]
      exact hnull
    rw [ensures_doIf]
    refine ⟨fun _ ↦ ?_, fun hroot ↦ ⟨.refl _ _, ⟨?_, hentry (.inr ?_)⟩, h2⟩⟩
    · rw [← hproc2] at hmaps hentry ⊢
      apply ((procFreekpagetable_at b w2 (.kern p) _ _).and
        ((procFreekpagetable_gone b w2 _ _ _).and (procFreekpagetable_tally hP h2 (by rwa [hproc2])
          hmaps (fun hzero ↦ hentry (.inl hzero)) fun z hz ↦ hct z (.inr (.inr hz))))).mono
      rintro _ w3 ⟨hat, hgone, h3⟩
      obtain ⟨hthere, hleaf⟩ := World.gone hgone
      exact ⟨hat, ⟨hthere, hleaf 0⟩, h3⟩
    · rw [hat2.there _ (by simp), hq1.core.there]
      simpa [World.there] using hroot
    · simpa [World.there] using hroot
  apply hkern.bind
  rintro _ w3 ⟨hat3, ⟨hk3, hentry3⟩, h3⟩
  have hproc3 : w3.proc = w.proc := hat3.proc.trans hproc2
  have hu3 : w3.there (.user p) = false := by rw [hat3.there _ (by simp), hu2]
  unfold setProc
  rw [ensures_modify, hproc3]
  set w4 : World P O F := { w3 with
    proc := update w.proc p { w.proc p with trapframe := none, kstack := 0, sz := 0 } }
    with hw4
  have hself : w4.proc p = { w.proc p with trapframe := none, kstack := 0, sz := 0 } :=
    update_self ..
  have hother : ∀ q, q ≠ p → w4.proc q = w.proc q := fun q hq ↦ update_of_ne hq ..
  have hframes : w4.frames = fr' := by
    funext q
    by_cases hq : q = p
    · rw [hq, hfr', update_self, World.frames, hself]
    · rw [hfr', update_of_ne hq, World.frames, World.frames, hother q hq]
  have howns : w4.owns w4.frames = w3.owns fr' := by
    rw [hframes]
    funext z
    cases z with
    | stack q =>
      by_cases hq : q = p
      · subst hq
        rw [h3.null _ (World.owns_root hk3) (.stack q) rfl]
        exact if_pos (by rw [hself])
      · simp only [World.owns, hother q hq, hproc3]
        rfl
    | _ => rfl
  refine ⟨h3.recast rfl howns rfl ?_ ?_ rfl, ⟨hu3, hk3, hentry3, ?_, ?_⟩, rfl⟩
  · refine World.place_congr fun q ↦ ?_
    by_cases hq : q = p
    · rw [hq, hself, hproc3]
    · rw [hother q hq, hproc3]
  · intro q
    by_cases hq : q = p
    · left
      rw [hq, hself]
    · rw [hother q hq]
      exact h.stack q
  · rw [hself]
  · rw [hself]

section

variable [DecidableEq O] [DecidableEq F]

omit [Fintype P] hP in
/-- `vma_destroy_all` empties the slots. -/
theorem vmaDestroyAll_slots {p : P} (hmapped : w.Mapped p) :
    Ensures (vmaDestroyAll p) w fun _ w' ↦ (∃ ns, Slots p w w' (fun _ ↦ none) ns) ∧
      ∀ n, w.leaf (.kern p) n = none → w'.leaf (.kern p) n = none := by
  rcases hmapped with ⟨hu, hk⟩ | hnone
  · apply (vmaDestroyAll_spec w p hu hk).mono
    rintro _ w1 ⟨ns, hslots, -⟩
    refine ⟨⟨ns, hslots⟩, fun n hn ↦ ?_⟩
    rw [hslots.leaf, Leaves.unmap_kern]
    dsimp only
    rw [hn, ite_self]
  · have hsame : Ensures (vmaDestroyAll p) w fun _ w' ↦ w' = w := by
      apply ensures_forEach (fun _ w' ↦ w' = w) _ rfl
      rintro i is _ rfl
      unfold destroySlot
      rw [ensures_bind, ensures_get, hnone i]
      exact ensures_pure.mpr rfl
    apply hsame.mono
    rintro _ w1 rfl
    refine ⟨⟨[], ?_⟩, fun _ hn ↦ hn⟩
    have hslots := Slots.refl p w1
    rwa [show (w1.proc p).vmas = fun _ ↦ none from funext hnone] at hslots

/-- `freeproc` takes back what the slot owns and its mappings. -/
theorem freeproc_tally (h : Tally ct w.frames hs w) {b : Boot P} {p : P}
    (hsz : (w.proc p).sz ≤ maxuva)
    (hmaps : (w.proc p).kstack ≠ 0 → kstackPage ∉ b.kmaps.map Prod.fst)
    (hnull : (w.proc p).kstack = 0 ∨ w.there (.kern p) = false → w.leaf (.kern p) 0 = none)
    (hlay : Layout (w.proc p).sz (w.proc p).vmas) (hmapped : w.Mapped p) (hobjs : NoObjects ct)
    (hct : ∀ z : Owner P O, z.Of p → ct z = none) :
    Ensures (freeproc b p) w fun _ w' ↦ Tally ct w'.frames hs w' ∧ Vacant p w' ∧
      (w'.proc p).sz = 0 := by
  unfold freeproc
  apply ((vmaDestroyAll_slots hmapped).and (vmaDestroyAll_tally hP h hlay hmapped hobjs
    fun n ↦ hct _ (.inr (.inl rfl)))).bind
  rintro _ w1 ⟨⟨⟨ns, hslots⟩, hkeep⟩, h1⟩
  have hself : w1.proc p = { w.proc p with vmas := fun _ ↦ none } := by
    rw [hslots.proc, update_self]
  have hframes : w1.frames = w.frames := by
    funext q
    by_cases hq : q = p
    · rw [World.frames, World.frames, hq, hself]
    · rw [World.frames, World.frames, hslots.proc, update_of_ne hq]
  have h1' : Tally ct w1.frames hs w1 := by rwa [hframes]
  apply (freeprocvm_tally hP h1' (b := b) (p := p) (by rwa [hself]) (by rwa [hself])
    (fun hempty ↦ hkeep 0 (hnull (by rwa [hself, hslots.there] at hempty))) hct).bind
  rintro _ w2 ⟨h2, hvacant, hproc2⟩
  refine (setProc_tally p ?_ h2).mono ?_
  · exact fun _ ↦ ⟨rfl, rfl, rfl⟩
  rintro _ w3 ⟨h3, hproc3, hpt3⟩
  have hvacant3 := hvacant.pt hpt3 (by rw [hproc3, update_self])
    (by rw [hproc3, update_self])
  exact ⟨h3, hvacant3, by rw [hproc3, update_self, hproc2, update_self]⟩

end

/-! ### Filling a slot -/

omit [DecidableEq P] [Fintype P] hP in
/-- Trap frames of equal records. -/
theorem World.frames_eq {w' : World P O F} (h : w'.proc = w.proc) : w'.frames = w.frames := by
  unfold World.frames
  rw [h]

omit [DecidableEq P] [Fintype P] hP in
/-- Where a process has no stack no entry of its kernel table is an owner. -/
theorem World.not_owned_kern {p : P} (h : (w.proc p).kstack = 0) (n : Nat) :
    ¬ w.Owned (.kern p) n :=
  fun howned ↦ howned.1 h

omit [Fintype P] hP in
/-- A mapping of the kernel, in a table without a stack. -/
theorem mappages_kern (h : Tally ct fr hs w) {p : P} (hk : (w.proc p).kstack = 0)
    (hthere : w.there (.kern p) = true) (n pa : Nat) (perm : Perm) :
    Ensures (mappages (.kern p) n pa perm) w fun ok w' ↦ Tally ct fr hs w' ∧ Core w w' ∧
      Steady w w' ∧ (∀ m, (w.leaf (.kern p) m).isSome → (w'.leaf (.kern p) m).isSome) ∧
      (ok = true → w.leaf (.kern p) n = none ∧ w'.leaf (.kern p) n = some ⟨pa, perm⟩) := by
  apply (mappages_tally h n pa perm hthere).mono
  rintro ok _ ⟨w1, h1, hg, ⟨rfl, hnone, rfl⟩ | ⟨rfl, rfl⟩⟩
  · have heff := w1.putEntry_eff (.kern p) n (some ⟨pa, perm⟩)
    have hk1 : (w1.proc p).kstack = 0 := by rw [hg.core.proc, hk]
    refine ⟨h1.putEntry_unowned (World.not_owned_kern hk1 n) _, hg.core.trans heff.core, hg.steady,
      fun m hm ↦ ?_, fun _ ↦ ⟨hnone, ?_⟩⟩
    · rw [heff.leaf, Leaves.put_same, hg.leaf, update_apply]
      split_ifs
      · rfl
      · exact hm
    · rw [heff.leaf, Leaves.put_same, update_self]
  · exact ⟨h1, hg.core, hg.steady, fun m hm ↦ by rwa [hg.leaf], by rintro ⟨⟩⟩

omit [Fintype P] hP in
private theorem ukvmfree_gone (w : World P O F) (t : Tbl P) :
    Ensures (ukvmfree t) w fun _ w' ↦ w'.pt t = .null := by
  unfold ukvmfree setPt
  simp only [ensures_bind, ensures_get, ensures_modify]
  exact (kfreePages_quiet w _).mono fun _ _ _ ↦ update_self ..

/-- `ukvminit` maps what every kernel table has, or leaves no table. -/
theorem ukvminit_tally (h : Tally ct fr hs w) (b : Boot P) {p : P}
    (hnone : w.there (.kern p) = false) (hentry : w.leaf (.kern p) 0 = none)
    (hk : (w.proc p).kstack = 0) :
    Ensures (ukvminit b (.kern p)) w fun ok w' ↦ Tally ct fr hs w' ∧
      (ok = true → ∀ m ∈ b.kmaps, (w'.leaf (.kern p) m.1).isSome) ∧
      (ok = false → w'.there (.kern p) = false ∧ w'.leaf (.kern p) 0 = none) := by
  have hct : ∀ z, z.table = some (.kern p) → ct z = none := fun z hz ↦
    h.rootless (World.owns_root hnone) hz
  unfold ukvminit
  rw [ensures_bind]
  have hcreate : Ensures (uvmcreate (.kern p)) w fun ok w' ↦ ok = false →
      w'.leaf (.kern p) 0 = none := by
    unfold uvmcreate
    apply (kallocPage_quiet w).bind
    intro r w1 hq1
    cases r with
    | none =>
      rw [ensures_pure, hq1.leaf]
      exact fun _ ↦ hentry
    | some pa =>
      refine ensures_bind_of fun _ w2 ↦ ensures_bind_of fun _ w3 ↦ ?_
      rw [ensures_pure]
      rintro ⟨⟩
  apply (((uvmcreate_spec w _).and (uvmcreate_null hnone)).and (hcreate.and
    (uvmcreate_tally h (World.owns_root hnone)))).mono
  rintro ok w1 ⟨⟨⟨hat1, hblank1⟩, hnull1⟩, hentry1, h1, -, -⟩
  rw [ensures_ite, ensures_pure]
  refine ⟨fun hok ↦ ?_, fun hok ↦ ?_⟩
  swap
  · rw [Bool.not_eq_true] at hok
    exact ⟨h1, by rintro ⟨⟩, fun _ ↦ ⟨hnull1 hok, hentry1 hok⟩⟩
  refine (ensures_stopAt (fun left w' ↦ Tally ct fr hs w' ∧ (w'.proc p).kstack = 0 ∧
      w'.there (.kern p) = true ∧ ∀ m ∈ b.kmaps, m ∈ left ∨ (w'.leaf (.kern p) m.1).isSome)
    (fun _ _ w' ↦ Tally ct fr hs w' ∧ (w'.proc p).kstack = 0) ?_
    ⟨h1, by rw [hat1.proc, hk], (hblank1 hok).1, fun m hm ↦ .inl hm⟩).bind ?_
  · rintro m left w2 ⟨h2, hk2, hthere2, hdone2⟩
    apply (mappages_kern h2 hk2 hthere2 m.1 m.2.pa m.2.perm).mono
    rintro ok w3 ⟨h3, hcore3, -, hkeep3, hput3⟩
    have hk3 : (w3.proc p).kstack = 0 := by rw [hcore3.proc, hk2]
    cases ok with
    | false => exact ⟨h3, hk3⟩
    | true =>
      refine ⟨h3, hk3, by rw [hcore3.there, hthere2], fun x hx ↦ ?_⟩
      rcases hdone2 x hx with hx | hx
      · rcases List.mem_cons.mp hx with rfl | hx
        · right
          rw [(hput3 rfl).2]
          rfl
        · exact .inl hx
      · exact .inr (hkeep3 _ hx)
  · intro r w2 h2
    cases r with
    | none =>
      rw [ensures_pure]
      obtain ⟨h2, -, -, hdone2⟩ := h2
      exact ⟨h2, fun _ m hm ↦ (hdone2 m hm).resolve_left List.not_mem_nil, by rintro ⟨⟩⟩
    | some m =>
      obtain ⟨_, _, h2, hk2⟩ := h2
      simp only [ensures_bind, ensures_pure]
      apply ((ukvmfree_gone w2 _).and (ukvmfree_tally hP h2 hk2 hct)).mono
      rintro _ w3 ⟨hgone3, h3, -⟩
      obtain ⟨hthere3, hleaf3⟩ := World.gone hgone3
      exact ⟨h3, by rintro ⟨⟩, fun _ ↦ ⟨hthere3, hleaf3 0⟩⟩

omit [Fintype P] hP in
/-- A page in hand becomes the trap frame. -/
theorem setFrame_tally {p : P} {pa : Nat} (h : Tally ct w.frames (pa :: hs) w)
    (hone : w.quota pa = 1) (hnone : (w.proc p).trapframe = none) :
    Ensures (setProc p fun q ↦ { q with trapframe := some pa }) w fun _ w' ↦
      Tally ct w'.frames hs w' ∧
        w'.proc = update w.proc p { w.proc p with trapframe := some pa } ∧
        w'.pt = w.pt := by
  unfold setProc
  rw [ensures_modify]
  set w' : World P O F := { w with
    proc := update w.proc p { w.proc p with trapframe := some pa } } with hw'
  have hself : w'.proc p = { w.proc p with trapframe := some pa } := update_self ..
  have hother : ∀ q, q ≠ p → w'.proc q = w.proc q := fun q hq ↦ update_of_ne hq ..
  have hsame : ∀ q, (w'.proc q).kstack = (w.proc q).kstack ∧
      (w'.proc q).vmas = (w.proc q).vmas := by
    intro q
    by_cases hq : q = p
    · rw [hq, hself]
      exact ⟨rfl, rfl⟩
    · rw [hother q hq]
      exact ⟨rfl, rfl⟩
  refine ⟨h.gain_fresh hone (x := .frame p) (fun z hz ↦ ?_) hnone ?_ rfl (by rintro _ ⟨⟩) h.keyed
    (World.place_congr fun q ↦ (hsame q).2) (fun q ↦ ?_) rfl, rfl, rfl⟩
  · rw [show w'.owns w'.frames = w.owns w'.frames from
      World.owns_congr rfl rfl fun q ↦ (hsame q).1]
    refine World.owns_frames (fun q hq ↦ ?_) hz
    rw [World.frames, World.frames, hother q hq]
  · change (w'.proc p).trapframe = some pa
    rw [hself]
  · rw [(hsame q).1]
    exact h.stack q

omit [Fintype P] hP in
/-- A page in hand that the kernel table maps becomes the stack. -/
theorem setStack_tally {p : P} {pa : Nat} {perm : Perm} (h : Tally ct w.frames (pa :: hs) w)
    (hone : w.quota pa = 1) (hk : (w.proc p).kstack = 0) (hvmas : ∀ i, (w.proc p).vmas i = none)
    (hthere : w.there (.kern p) = true) (hleaf : w.leaf (.kern p) kstackPage = some ⟨pa, perm⟩) :
    Ensures (setProc p fun q ↦ { q with kstack := kstackPage, vmas := fun _ ↦ none }) w
      fun _ w' ↦ Tally ct w'.frames hs w' ∧ w'.proc = update w.proc p
        { w.proc p with kstack := kstackPage, vmas := fun _ ↦ none } := by
  unfold setProc
  rw [ensures_modify]
  set w' : World P O F := { w with
    proc := update w.proc p
      { w.proc p with kstack := kstackPage, vmas := fun _ ↦ none } } with hw'
  have hself : w'.proc p = { w.proc p with kstack := kstackPage, vmas := fun _ ↦ none } :=
    update_self ..
  have hother : ∀ q, q ≠ p → w'.proc q = w.proc q := fun q hq ↦ update_of_ne hq ..
  have hframes : w'.frames = w.frames := by
    funext q
    by_cases hq : q = p
    · rw [World.frames, World.frames, hq, hself]
    · rw [World.frames, World.frames, hother q hq]
  refine ⟨?_, rfl⟩
  rw [hframes]
  refine h.gain_fresh hone (x := .stack p) (fun z hz ↦ ?_) (if_pos hk) ?_ rfl (fun t ht ↦ ?_)
    h.keyed (World.place_congr fun q ↦ ?_) (fun q ↦ ?_) rfl
  · cases z with
    | stack q =>
      have hq : q ≠ p := fun hq ↦ hz (by rw [hq])
      simp only [World.owns, hother q hq]
      rfl
    | _ => rfl
  · have hne : kstackPage ≠ 0 := by decide
    simp only [World.owns, hself, if_neg hne]
    rw [show w'.leaf = w.leaf from rfl, hleaf]
    rfl
  · cases ht
    exact .inr (World.there_root hthere)
  · by_cases hq : q = p
    · rw [hq, hself]
      exact (funext hvmas).symm
    · rw [hother q hq]
  · by_cases hq : q = p
    · rw [hq, hself]
      exact .inr rfl
    · rw [hother q hq]
      exact h.stack q

variable [DecidableEq O] [DecidableEq F]

/-- What `freeproc` needs of a slot that has no stack yet. -/
theorem freeHalf_tally {b : Boot P} {p : P} (h : Tally ct w.frames hs w)
    (hsz : (w.proc p).sz ≤ maxuva) (hk : (w.proc p).kstack = 0)
    (hentry : w.leaf (.kern p) 0 = none) (hvmas : ∀ i, (w.proc p).vmas i = none)
    (hobjs : NoObjects ct) (hct : ∀ z : Owner P O, z.Of p → ct z = none) :
    Ensures (freeproc b p >>= fun _ ↦ pure false) w fun ok w' ↦ Tally ct w'.frames hs w' ∧
      (w'.proc p).sz ≤ maxuva ∧
      (ok = true → (w'.proc p).kstack ≠ 0 ∧ kstackPage ∉ b.kmaps.map Prod.fst) ∧
      (ok = false → Vacant p w') := by
  have hlay : Layout (w.proc p).sz (w.proc p).vmas := by
    rw [funext hvmas]
    exact .empty _
  simp only [ensures_bind, ensures_pure]
  refine (freeproc_tally hP h hsz (fun hne ↦ absurd hk hne) (fun _ ↦ hentry) hlay (.inr hvmas)
    hobjs hct).mono ?_
  rintro _ w' ⟨h', hvacant, hsz'⟩
  exact ⟨h', by rw [hsz']; exact Nat.zero_le _, by rintro ⟨⟩, fun _ ↦ hvacant⟩

/-- `allocproc` gives a vacant slot what a process owns, or nothing. -/
theorem allocproc_tally (b : Boot P) {p : P} (h : Tally ct w.frames hs w) (hv : Vacant p w)
    (hvmas : ∀ i, (w.proc p).vmas i = none) (hsz : (w.proc p).sz ≤ maxuva)
    (hobjs : NoObjects ct) :
    Ensures (allocproc b p) w fun ok w' ↦ Tally ct w'.frames hs w' ∧ (w'.proc p).sz ≤ maxuva ∧
      (ok = true → (w'.proc p).kstack ≠ 0 ∧ kstackPage ∉ b.kmaps.map Prod.fst) ∧
      (ok = false → Vacant p w') := by
  have hct := hv.untold h
  unfold allocproc
  apply (kallocPage_tally h).bind
  rintro r w1 ⟨hq1, -, hr1⟩
  have hfr1 : w1.frames = w.frames := World.frames_eq hq1.core.proc
  have hv1 : Vacant p w1 := hv.pt hq1.pt (by rw [hq1.core.proc]) (by rw [hq1.core.proc])
  cases r with
  | none =>
    rw [ensures_pure, hfr1, hq1.core.proc]
    exact ⟨hr1, hsz, by rintro ⟨⟩, fun _ ↦ hv1⟩
  | some tf =>
    obtain ⟨h1, -, hone1⟩ := hr1
    rw [← hfr1] at h1
    apply (setFrame_tally h1 hone1 hv1.frame).bind
    rintro _ w2 ⟨h2, hproc2, hpt2⟩
    -- the steps that follow leave the record of the slot as it is
    have hp2 : w2.proc p = { w.proc p with trapframe := some tf } := by
      rw [hproc2, update_self, hq1.core.proc]
    have hthere2 : ∀ t, w2.there t = w.there t := fun t ↦ by
      rw [World.there, hpt2, hq1.pt]
      rfl
    have hentry2 : w2.leaf (.kern p) 0 = none := by
      rw [World.leaf, hpt2, hq1.pt]
      exact hv.entry
    have hfail : ∀ {w' : World P O F}, Tally ct w'.frames hs w' → w'.proc p = w2.proc p →
        w'.leaf (.kern p) 0 = none →
        Ensures (freeproc b p >>= fun _ ↦ pure false) w' fun ok w'' ↦
          Tally ct w''.frames hs w'' ∧ (w''.proc p).sz ≤ maxuva ∧
          (ok = true → (w''.proc p).kstack ≠ 0 ∧ kstackPage ∉ b.kmaps.map Prod.fst) ∧
          (ok = false → Vacant p w'') := by
      intro w' h' hp' hentry'
      rw [hp2] at hp'
      refine freeHalf_tally hP h' ?_ ?_ hentry' ?_ hobjs hct
      · rw [hp']
        exact hsz
      · rw [hp']
        exact hv.kstack
      · rw [hp']
        exact hvmas
    apply ((procPagetable_spec b w2 (.user p) tf).and (procPagetable_tally hP h2 b (t := .user p)
      trivial (World.owns_root (by rw [hthere2, hv.user])) tf)).bind
    rintro ok w3 ⟨⟨hat3, -⟩, h3, -⟩
    rw [← World.frames_eq hat3.proc] at h3
    have hentry3 : w3.leaf (.kern p) 0 = none := by rw [hat3.leaf _ (by simp), hentry2]
    rw [ensures_ite]
    refine ⟨fun _ ↦ ?_, fun _ ↦ hfail h3 (by rw [hat3.proc]) hentry3⟩
    rw [ensures_bind]
    have hk3 : (w3.proc p).kstack = 0 := by
      rw [hat3.proc, hp2]
      exact hv.kstack
    apply ((ukvminit_spec b w3 (.kern p)).and (ukvminit_tally hP h3 b
      (by rw [hat3.there _ (by simp), hthere2, hv.kern]) hentry3 hk3)).mono
    rintro ok w4 ⟨⟨hat4, hblank4⟩, h4, hmaps4, hnull4⟩
    rw [← World.frames_eq hat4.proc] at h4
    have hp4 : w4.proc p = w2.proc p := by rw [hat4.proc, hat3.proc]
    rw [ensures_ite]
    refine ⟨fun hok ↦ ?_, fun hok ↦ hfail h4 hp4 (hnull4 (by simpa using hok)).2⟩
    have hb4 := hblank4 hok
    have hentry4 : w4.leaf (.kern p) 0 = none := hb4.leaf 0 (by unfold UserPage; decide)
    apply (kallocPage_tally h4).bind
    rintro r w5 ⟨hq5, -, hr5⟩
    have hfr5 : w5.frames = w4.frames := World.frames_eq hq5.core.proc
    have hp5 : w5.proc p = w2.proc p := by rw [hq5.core.proc, hp4]
    have hentry5 : w5.leaf (.kern p) 0 = none := by rw [hq5.leaf, hentry4]
    cases r with
    | none =>
      rw [← hfr5] at hr5
      exact hfail hr5 hp5 hentry5
    | some pa =>
      obtain ⟨h5, -, hone5⟩ := hr5
      rw [← hfr5] at h5
      have hk5 : (w5.proc p).kstack = 0 := by rw [hq5.core.proc, hat4.proc, hk3]
      have hthere5 : w5.there (.kern p) = true := by rw [hq5.core.there, hb4.there]
      apply (mappages_kern h5 hk5 hthere5 kstackPage pa _).bind
      rintro ok w6 ⟨h6, hcore6, hs6, -, hput6⟩
      rw [← World.frames_eq hcore6.proc] at h6
      have hp6 : w6.proc p = w2.proc p := by rw [hcore6.proc, hp5]
      have hk6 : (w6.proc p).kstack = 0 := by rw [hcore6.proc, hk5]
      rw [ensures_ite]
      constructor
      · intro hok6
        obtain ⟨hnone6, hleaf6⟩ := hput6 hok6
        have hvmas6 : ∀ i, (w6.proc p).vmas i = none := by
          rw [hp6, hp2]
          exact hvmas
        apply (setStack_tally h6 (hs6.one hone5) hk6 hvmas6 (by rw [hcore6.there, hthere5])
          hleaf6).bind
        rintro _ w7 ⟨h7, hproc7⟩
        rw [ensures_pure, hproc7, update_self, hp6, hp2]
        refine ⟨h7, hsz, fun _ ↦ ⟨show kstackPage ≠ 0 by decide, fun hmem ↦ ?_⟩, by rintro ⟨⟩⟩
        obtain ⟨m, hm, hpage⟩ := List.mem_map.mp hmem
        have hsome := hmaps4 hok m hm
        rw [hpage, ← hq5.leaf, hnone6] at hsome
        cases hsome
      · intro _
        apply (kfreePage_tally hP h6).bind
        rintro _ w7 ⟨hq7, h7⟩
        have hk7 : (w7.proc p).kstack = 0 := by rw [hq7.core.proc, hk6]
        apply ((ukvmfree_at w7 (.kern p)).and ((ukvmfree_gone w7 (.kern p)).and
          (ukvmfree_tally hP h7 hk7 fun z hz ↦ hct z (.inr (.inr hz))))).bind
        rintro _ w8 ⟨hat8, hgone8, h8, -⟩
        rw [← World.frames_eq hq7.core.proc, ← World.frames_eq hat8.proc] at h8
        exact hfail h8 (by rw [hat8.proc, hq7.core.proc, hp6]) ((World.gone hgone8).2 0)

end

end Xv6K210.Vm
