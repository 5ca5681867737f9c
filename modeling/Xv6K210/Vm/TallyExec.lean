import Xv6K210.Vm.TallyMaps

/-!
# Exec in the tally

`exec` fills the table of the new image with pages that nobody else has, so what it
writes to them is seen by nobody else. Whatever fails, the pages of the image are freed with its
table. When nothing fails the two tables change their roles, and what an entry of the image held is
what the entry of the process holds.
-/

namespace Xv6K210.Vm

open Xv6K210.Base Prog Function

variable {P O F : Type} [DecidableEq P] {ct : Owner P O → Option (Nat → UInt8)}
  {fr : P → Option Nat}
  {hs : List Nat} {w : World P O F}

/-! ### Writing to pages of one owner -/

omit [DecidableEq P] in
/-- A page that counts once is written, and nothing is told of its owner. -/
theorem Tally.writeOwned {w' : World P O F} (h : Tally ct fr hs w) {x : Owner P O} {pa : Nat}
    (hx : w.owns fr x = some pa) (hone : w.quota pa = 1) (hct : ct x = none) (h' : Quiet w w')
    (hquota : w'.quota = w.quota) (hmem : ∀ c, c ≠ pa → w'.mem c = w.mem c) :
    Tally ct fr hs w' := by
  have hkept : ∀ z m, ct z = some m → ∃ c, w'.owns fr z = some c ∧ w'.mem c = m := by
    intro z m hz
    obtain ⟨c, hc, rfl⟩ := h.kept z m hz
    refine ⟨c, by rw [h'.owns, hc], hmem c ?_⟩
    rintro rfl
    rw [h.unique hone hc hx, hct] at hz
    cases hz
  have hbase : Tally untold fr hs w := h.weaken nofun
  have hbase' : Tally untold fr hs w' :=
    ⟨by rw [hquota, h'.owns]; exact hbase.count, by rw [h'.owns]; exact hbase.once, hbase.few,
      by rw [h'.owns]; exact hbase.null, by rw [h'.obj]; exact hbase.keyed,
      by rw [h'.owns, h'.alike.place]; exact hbase.member, by rw [h'.alike.place]; exact hbase.base,
      fun p ↦ by rw [h'.alike.kstack]; exact hbase.stack p, nofun⟩
  exact hbase'.known_again hkept

/-- The pages that a table maps for user memory count once. -/
def Sole (t : Tbl P) (w : World P O F) : Prop :=
  ∀ n e, UserPage n → w.leaf t n = some e → w.quota e.pa = 1

omit [DecidableEq P] in
/-- A sole owner stays one. -/
theorem Sole.steady {w' : World P O F} {t : Tbl P} (h : Sole t w) (hleaf : w'.leaf t = w.leaf t)
    (hs : Steady w w') : Sole t w' := by
  intro n e hn he
  rw [hleaf] at he
  exact hs.one (h n e hn he)

/-! ### Tables of processes -/

omit [DecidableEq P] in
/-- A table without a root has no page, and nothing is told of it. -/
theorem Tally.rootless (h : Tally ct fr hs w) {t : Tbl P} (ht : w.owns fr (.root t) = none)
    {z : Owner P O} (hz : z.table = some t) : ct z = none :=
  h.ct_none (h.null t ht z hz)

/-- `mappages` outside user memory, in the table of a process. -/
theorem mappages_outside (h : Tally ct fr hs w) {t : Tbl P} (ht : t.Process) {n : Nat}
    (hn : maxuva / pgsize ≤ n) (pa : Nat) (perm : Perm) (hthere : w.there t = true) :
    Ensures (mappages t n pa perm) w fun _ w' ↦
      Tally ct fr hs w' ∧ w'.obj = w.obj ∧ Steady w w' ∧ w'.there t = true := by
  refine ((mappages_spec w t n pa perm).and (mappages_unowned h pa perm hthere
    (ht.not_owned hn))).mono ?_
  rintro b w' ⟨hspec, h', hsteady, hobj⟩
  refine ⟨h', hobj, hsteady, ?_⟩
  rcases hspec with ⟨-, -, heff⟩ | ⟨-, heff⟩
  · rw [heff.core.there, hthere]
  · rw [heff.core.there, hthere]

section

variable [Fintype P] (hP : Fintype.card P ≤ nproc)

include hP

/-- Entries outside user memory go. -/
theorem uvmunmap_outside (h : Tally ct fr hs w) {t : Tbl P} (ht : t.Process) {n : Nat}
    (hn : maxuva / pgsize ≤ n) :
    Ensures (uvmunmap t [n] false) w fun _ w' ↦ Tally ct fr hs w' ∧ w'.obj = w.obj := by
  apply uvmunmap_unowned hP h
  intro m hm
  rw [List.mem_singleton] at hm
  rw [hm]
  exact ht.not_owned hn

/-- `proc_pagetable`, where there is no table yet. -/
theorem procPagetable_tally (h : Tally ct fr hs w) (b : Boot P) {t : Tbl P} (ht : t.Process)
    (hroot : w.owns fr (.root t) = none) (trapframe : Nat) :
    Ensures (procPagetable b t trapframe) w fun _ w' ↦ Tally ct fr hs w' ∧ w'.obj = w.obj := by
  have hct : ∀ z, z.table = some t → ct z = none := fun z hz ↦ h.rootless hroot hz
  have hfail : ∀ {w1 : World P O F}, Tally ct fr hs w1 → w1.obj = w.obj →
      Ensures (do uvmfree t 0; pure false) w1 fun _ w' ↦ Tally ct fr hs w' ∧ w'.obj = w.obj := by
    intro w1 h1 hobj1
    simp only [ensures_bind, ensures_pure]
    apply (uvmfree_tally hP h1 (.inl rfl) hct).mono
    rintro _ w2 ⟨h2, hobj2⟩
    exact ⟨h2, hobj2.trans hobj1⟩
  unfold procPagetable
  apply ((uvmcreate_spec w t).and (uvmcreate_tally h hroot)).bind
  rintro ok w1 ⟨⟨-, hblank⟩, h1, hobj1, -⟩
  rw [ensures_ite, ensures_pure]
  refine ⟨fun hok ↦ ?_, fun _ ↦ ⟨h1, hobj1⟩⟩
  have hthere1 := (hblank hok).1
  apply (mappages_outside h1 ht (by decide) _ _ hthere1).bind
  rintro ok w2 ⟨h2, hobj2, -, hthere2⟩
  rw [ensures_ite]
  refine ⟨fun _ ↦ ?_, fun _ ↦ hfail h2 (hobj2.trans hobj1)⟩
  apply (mappages_outside h2 ht (by decide) _ _ hthere2).bind
  rintro ok w3 ⟨h3, hobj3, -, hthere3⟩
  have hobj3' := hobj3.trans (hobj2.trans hobj1)
  rw [ensures_ite]
  constructor
  · intro _
    apply (mappages_outside h3 ht (by decide) _ _ hthere3).bind
    rintro ok w4 ⟨h4, hobj4, -, -⟩
    rw [ensures_ite, ensures_pure]
    refine ⟨fun _ ↦ ⟨h4, hobj4.trans hobj3'⟩, fun _ ↦ ?_⟩
    apply (uvmunmap_outside hP h4 ht (by decide)).bind
    rintro _ w5 ⟨h5, hobj5⟩
    apply (uvmunmap_outside hP h5 ht (by decide)).bind
    rintro _ w6 ⟨h6, hobj6⟩
    exact hfail h6 (hobj6.trans (hobj5.trans (hobj4.trans hobj3')))
  · intro _
    apply (uvmunmap_outside hP h3 ht (by decide)).bind
    rintro _ w4 ⟨h4, hobj4⟩
    exact hfail h4 (hobj4.trans hobj3')

/-- `proc_freepagetable`. -/
theorem procFreepagetable_tally (h : Tally ct fr hs w) {t : Tbl P} (ht : t.Process) {sz : Nat}
    (hsz : sz ≤ maxuva) (hct : ∀ z, z.table = some t → ct z = none) :
    Ensures (procFreepagetable t sz) w fun _ w' ↦ Tally ct fr hs w' ∧ w'.obj = w.obj := by
  unfold procFreepagetable uvmStackUnmap
  apply (uvmunmap_process hP ht h
    (fun n hn ↦ userPage_of_mem_pages (by decide) (by decide) hn)
    fun n _ ↦ hct _ (t.table_entry n)).bind
  rintro _ w1 ⟨h1, hobj1⟩
  apply (uvmunmap_outside hP h1 ht (by decide)).bind
  rintro _ w2 ⟨h2, hobj2⟩
  apply (uvmunmap_outside hP h2 ht (by decide)).bind
  rintro _ w3 ⟨h3, hobj3⟩
  apply (uvmunmap_outside hP h3 ht (by decide)).bind
  rintro _ w4 ⟨h4, hobj4⟩
  apply (uvmfree_tally hP h4 (.inr ⟨ht, hsz⟩) hct).mono
  rintro _ w5 ⟨h5, hobj5⟩
  exact ⟨h5, hobj5.trans (hobj4.trans (hobj3.trans (hobj2.trans hobj1)))⟩

/-! ### Filling the image -/

omit [Fintype P] hP in
/-- A page that was just allocated is mapped in the table of a process. -/
theorem mapNew_tally {t : Tbl P} {n pa : Nat} (h : Tally ct fr (pa :: hs) w) (perm : Perm)
    (ht : t.Process) (hn : UserPage n) (hthere : w.there t = true) (hone : w.quota pa = 1)
    (hsole : Sole t w) :
    Ensures (mappages t n pa perm) w fun ok w' ↦ w'.there t = true ∧ Sole t w' ∧
      w'.obj = w.obj ∧
      if ok then Tally ct fr hs w' ∧ w'.leaf t n = some ⟨pa, perm⟩ ∧ w.leaf t n = none
      else Tally ct fr (pa :: hs) w' := by
  apply (mappages_tally h n pa perm hthere).mono
  rintro ok _ ⟨w1, h1, hg, ⟨rfl, hfree, rfl⟩ | ⟨rfl, rfl⟩⟩
  · have heff := w1.putEntry_eff t n (some ⟨pa, perm⟩)
    have hthere1 : w1.there t = true := by rw [hg.core.there, hthere]
    refine ⟨by rw [heff.core.there, hthere1], ?_, hg.obj, ?_⟩
    · intro m e hm he
      change w1.quota e.pa = 1
      rw [heff.leaf, Leaves.put_apply] at he
      split_ifs at he
      · cases he
        exact hg.steady.one hone
      · rw [hg.leaf] at he
        exact hg.steady.one (hsole m e hm he)
    · rw [if_pos rfl]
      refine ⟨?_, ?_, hfree⟩
      · refine h1.putEntry_fresh (ht.owned.mpr hn) ?_ hthere1 (hg.steady.one hone) perm
        rw [hg.leaf, hfree]
      · rw [heff.leaf, Leaves.put_same, update_self]
  · rw [if_neg (by simp)]
    exact ⟨by rw [hg.core.there, hthere], hsole.steady (by rw [hg.leaf]) hg.steady, hg.obj, h1⟩

/-- What filling the image keeps: the tally, the table, and that its pages are its own. -/
structure Filling (ct : Owner P O → Option (Nat → UInt8)) (fr : P → Option Nat) (hs : List Nat)
    (t : Tbl P) (w : World P O F) : Prop where
  tally : Tally ct fr hs w
  there : w.there t = true
  sole : Sole t w

/-- A new page of the image. -/
theorem newPage_filling {t : Tbl P} {n : Nat} {perm : Perm} (h : Filling ct fr hs t w)
    (ht : t.Process) (hn : UserPage n) :
    Ensures (do
      match ← kallocPage with
      | none => pure false
      | some pa =>
        zeroPage pa
        if ← mappages t n pa perm then pure true
        else
          kfreePage pa
          pure false) w fun ok w' ↦ w'.obj = w.obj ∧
            if ok then Filling ct fr hs t w' ∧ ∃ pa, w'.leaf t n = some ⟨pa, perm⟩
            else Tally ct fr hs w' := by
  apply (kallocPage_tally h.tally).bind
  rintro r w1 ⟨hq1, hs1, hr⟩
  cases r with
  | none =>
    rw [ensures_pure]
    exact ⟨hq1.obj, hr⟩
  | some pa =>
    obtain ⟨h1, -, hone⟩ := hr
    apply (zeroPage_tally h1 hone).bind
    rintro _ w2 ⟨hq2, hquota2, h2⟩
    have hthere2 : w2.there t = true := by rw [(hq1.trans hq2).core.there, h.there]
    have hsole2 : Sole t w2 :=
      h.sole.steady (by rw [hq2.leaf, hq1.leaf]) (hs1.trans (.of_eq hquota2))
    have hobj2 : w2.obj = w.obj := by rw [hq2.obj, hq1.obj]
    apply (mapNew_tally h2 perm ht hn hthere2 (by rw [hquota2, hone]) hsole2).bind
    rintro ok w3 ⟨hthere3, hsole3, hobj3, h3⟩
    rw [ensures_ite, ensures_pure]
    constructor
    · intro hok
      rw [if_pos hok] at h3
      exact ⟨hobj3.trans hobj2, ⟨h3.1, hthere3, hsole3⟩, pa, h3.2.1⟩
    · intro hok
      rw [if_neg hok] at h3
      simp only [ensures_bind, ensures_pure]
      apply (kfreePage_tally hP h3).mono
      rintro _ w4 ⟨hq4, h4⟩
      exact ⟨by rw [hq4.obj, hobj3, hobj2], h4⟩

omit [Fintype P] hP in
/-- `uvmalloc` answers no size above `MAXUVA`. -/
theorem uvmalloc_le (w : World P O F) (t : Tbl P) (oldsz newsz : Nat) (hle : oldsz ≤ maxuva) :
    Ensures (uvmalloc t oldsz newsz) w fun sz _ ↦ sz ≤ maxuva := by
  unfold uvmalloc
  simp only [ensures_ite, ensures_pure, ensures_bind]
  refine ⟨fun _ ↦ hle, fun _ ↦ ⟨fun _ ↦ Nat.zero_le _, fun hmax ↦ ?_⟩⟩
  constructor
  intro r w1 _
  cases r with
  | none =>
    rw [ensures_pure]
    exact Nat.le_of_not_lt hmax
  | some n =>
    rw [ensures_bind]
    constructor
    intro _ w2 _
    rw [ensures_pure]
    exact Nat.zero_le _

/-- `uvmalloc`. -/
theorem uvmalloc_filling {t : Tbl P} (h : Filling ct fr hs t w) (ht : t.Process)
    (hct : ∀ n, ct (t.entry n) = none) (oldsz newsz : Nat) :
    Ensures (uvmalloc t oldsz newsz) w fun sz w' ↦ w'.obj = w.obj ∧ Tally ct fr hs w' ∧
      (sz ≠ 0 → Filling ct fr hs t w') := by
  unfold uvmalloc
  simp only [ensures_ite, ensures_pure]
  refine ⟨fun _ ↦ ⟨trivial, h.tally, fun _ ↦ h⟩, fun _ ↦
    ⟨fun _ ↦ ⟨trivial, h.tally, by simp⟩, fun hmax ↦ ?_⟩⟩
  have hpage : ∀ n ∈ pages (pgroundup oldsz) newsz, UserPage n := fun n hn ↦
    userPage_of_mem_pages (pgroundup_mod oldsz) (Nat.le_of_not_lt hmax) hn
  refine (ensures_stopAt
    (fun left w' ↦ left ⊆ pages (pgroundup oldsz) newsz ∧ w'.obj = w.obj ∧ Filling ct fr hs t w')
    (fun n _ w' ↦ n ∈ pages (pgroundup oldsz) newsz ∧ w'.obj = w.obj ∧ Tally ct fr hs w') ?_
    ⟨fun _ hn ↦ hn, rfl, h⟩).bind ?_
  · rintro n left w1 ⟨hsub, hobj1, h1⟩
    have hn := hsub List.mem_cons_self
    apply (newPage_filling hP h1 ht (hpage n hn)).mono
    rintro ok w2 ⟨hobj2, h2⟩
    cases ok with
    | false => exact ⟨hn, hobj2.trans hobj1, h2⟩
    | true => exact ⟨fun m hm ↦ hsub (List.mem_cons_of_mem n hm), hobj2.trans hobj1, h2.1⟩
  · intro r w1 h1
    cases r with
    | none =>
      rw [ensures_pure]
      exact ⟨h1.2.1, h1.2.2.tally, fun _ ↦ h1.2.2⟩
    | some n =>
      obtain ⟨_, -, hn, hobj1, h1⟩ := h1
      unfold uvmdealloc
      simp only [ensures_bind, ensures_ite, ensures_pure]
      refine ⟨fun _ ↦ ⟨hobj1, h1, by simp⟩, fun _ ↦ ?_⟩
      have hmem := (mem_pages (pgroundup_mod oldsz)).mp hn
      have hle : pgroundup (n * pgsize) ≤ maxuva := by
        have hn' := hpage n hn
        unfold UserPage at hn'
        exact pgroundup_le (by decide) hn'.le
      refine (uvmunmap_process hP ht h1 (fun m hm ↦ ?_) fun m _ ↦ hct m).mono ?_
      · exact userPage_of_mem_pages (pgroundup_mod _) hle hm
      · rintro _ w2 ⟨h2, hobj2⟩
        exact ⟨hobj2.trans hobj1, h2, by simp⟩

section

omit [DecidableEq P] [Fintype P] hP

/-- A page of the image is written. -/
theorem Filling.write {t : Tbl P} {w' : World P O F} (h : Filling ct fr hs t w) (ht : t.Process)
    {n : Nat} {e : Pte} (hn : UserPage n) (he : w.leaf t n = some e) (hct : ct (t.entry n) = none)
    (hq : Quiet w w') (hquota : w'.quota = w.quota)
    (hmem : ∀ c, c ≠ e.pa → w'.mem c = w.mem c) : Filling ct fr hs t w' := by
  have howns : w.owns fr (t.entry n) = some e.pa := by
    rw [World.owns_entry _ ht hn, he]
    rfl
  refine ⟨h.tally.writeOwned howns (h.sole n e hn he) hct hq hquota hmem, ?_, ?_⟩
  · rw [hq.core.there, h.there]
  · exact h.sole.steady (by rw [hq.leaf]) (.of_eq hquota)

private theorem loadsegPage_filling {t : Tbl P} (h : Filling ct fr hs t w) (ht : t.Process)
    (hct : ∀ n, ct (t.entry n) = none) {s : Seg} {i : Nat} (hn : UserPage (s.vaddr / pgsize + i)) :
    Ensures (loadsegPage t s i) w fun _ w' ↦ w'.obj = w.obj ∧ Filling ct fr hs t w' := by
  unfold loadsegPage
  apply (walk_spec w t _).bind
  rintro r w0 ⟨rfl, hr⟩
  cases r with
  | none => exact ensures_halt
  | some e =>
    rw [ensures_modify]
    exact ⟨rfl, h.write ht hn hr.symm (hct _) (.of_eq rfl rfl rfl rfl rfl) rfl
      fun c hc ↦ update_of_ne hc ..⟩

/-- `loadseg`, of a segment that lies in user memory. -/
theorem loadseg_filling {t : Tbl P} (h : Filling ct fr hs t w) (ht : t.Process)
    (hct : ∀ n, ct (t.entry n) = none) {s : Seg} (haligned : s.vaddr % pgsize = 0)
    (hmax : s.vaddr + s.filesz ≤ maxuva) :
    Ensures (loadseg t s) w fun _ w' ↦ w'.obj = w.obj ∧ Filling ct fr hs t w' := by
  unfold loadseg
  rw [ensures_ite, ensures_pure]
  refine ⟨fun _ ↦ ?_, fun _ ↦ ⟨rfl, h⟩⟩
  simp only [ensures_bind, ensures_pure]
  refine (ensures_forEach (fun left w' ↦ (∀ i ∈ left, i < (s.filesz + pgsize - 1) / pgsize) ∧
    w'.obj = w.obj ∧ Filling ct fr hs t w') ?_
    ⟨fun i hi ↦ List.mem_range.mp hi, rfl, h⟩).mono fun _ _ h' ↦ h'.2
  rintro i left w1 ⟨hleft, hobj1, h1⟩
  have hi := hleft i List.mem_cons_self
  have hn : UserPage (s.vaddr / pgsize + i) := by
    unfold UserPage pgsize at *
    omega
  apply (loadsegPage_filling h1 ht hct hn).mono
  rintro _ w2 ⟨hobj2, h2⟩
  exact ⟨fun j hj ↦ hleft j (List.mem_cons_of_mem i hj), hobj2.trans hobj1, h2⟩

end

/-- The loop of `exec` over the program headers. -/
theorem loadSegs_filling {t : Tbl P} (ht : t.Process) (hct : ∀ n, ct (t.entry n) = none)
    (segs : List Seg) {w : World P O F} {sz : Nat} (h : Filling ct fr hs t w) (hsz : sz ≤ maxuva) :
    Ensures (loadSegs t sz segs) w fun r w' ↦ w'.obj = w.obj ∧ Tally ct fr hs w' ∧
      r.2 ≤ maxuva ∧ (r.1 = true → Filling ct fr hs t w') := by
  induction segs generalizing w sz with
  | nil =>
    rw [loadSegs, ensures_pure]
    exact ⟨rfl, h.tally, hsz, fun _ ↦ h⟩
  | cons s segs ih =>
    rw [loadSegs]
    simp only [ensures_ite, ensures_pure]
    refine ⟨fun _ ↦ ⟨trivial, h.tally, hsz, by simp⟩, fun _ ↦ ⟨fun _ ↦ ih h hsz, fun _ ↦
      ⟨fun _ ↦ ⟨trivial, h.tally, hsz, by simp⟩, fun hseg ↦ ?_⟩⟩⟩
    apply ((uvmalloc_le w t sz (s.vaddr + s.memsz) hsz).and
      (uvmalloc_filling hP h ht hct sz (s.vaddr + s.memsz))).bind
    rintro sz1 w1 ⟨hsz1, hobj1, htally1, h1⟩
    simp only [ensures_ite, ensures_pure]
    refine ⟨fun _ ↦ ⟨hobj1, htally1, hsz, by simp⟩, fun hne ↦
      ⟨fun _ ↦ ⟨hobj1, htally1, hsz1, by simp⟩, fun haligned ↦ ?_⟩⟩
    apply (loadseg_filling (h1 hne) ht hct (by simpa using haligned) (by omega)).bind
    rintro ok w2 ⟨hobj2, h2⟩
    rw [ensures_ite, ensures_pure]
    constructor
    · intro _
      apply (ih h2 hsz1).mono
      rintro r w3 ⟨hobj3, h3⟩
      exact ⟨hobj3.trans (hobj2.trans hobj1), h3⟩
    · intro _
      exact ⟨hobj2.trans hobj1, h2.tally, hsz1, by simp⟩

/-- `uvm_stack_init`. -/
theorem uvmStackInit_filling {t : Tbl P} (h : Filling ct fr hs t w) (ht : t.Process) :
    Ensures (uvmStackInit t) w fun ok w' ↦ w'.obj = w.obj ∧
      if ok then Filling ct fr hs t w' ∧ ∃ pa, w'.leaf t (stackbase / pgsize) =
        some ⟨pa, ⟨true, true, false, true, false⟩⟩
      else Tally ct fr hs w' :=
  newPage_filling hP h ht (n := userStackTop / pgsize - 1) (by unfold UserPage; decide)

/-! ### The kernel table -/

omit [Fintype P] hP in
/-- Entries that are not freed leave the quotas as they are. -/
theorem uvmunmap_steady (t : Tbl P) (ns : List Nat) :
    Ensures (uvmunmap t ns false) w fun _ w' ↦ Steady w w' := by
  refine (ensures_forEach (fun _ w' ↦ w'.quota = w.quota) ?_ rfl).mono fun _ _ h ↦ .of_eq h
  intro n left w1 h1
  unfold uvmunmapPage
  apply (walk_spec w1 t n).bind
  rintro r w2 ⟨rfl, -⟩
  split
  · rw [ensures_pure, h1]
  · simp only [ensures_ite, ensures_bind, ensures_doIf, Bool.false_eq_true, false_implies,
      true_and, not_false_eq_true, true_implies]
    refine ⟨fun _ ↦ ensures_halt, fun _ ↦ ?_⟩
    apply (clearLeaf_eq w2 t n).mono
    rintro _ _ rfl
    exact h1

/-- The kernel table of a process changes over to another table. -/
theorem reload_tally (h : Tally ct fr hs w) {p : P} (hk : w.there (.kern p) = true) {src : Tbl P}
    (hsrc : src ≠ .kern p) {old new : Nat} (hold : old ≤ maxuva) (hnew : new ≤ maxuva)
      (msg : String) :
    Ensures (do
      uvmunmap (.kern p) (pages 0 (pgroundup old)) false
      uvmStackUnmap (.kern p) false
      if ← upg2ukpg src (.kern p) (pages 0 new) then uvmStackSync src (.kern p)
      else halt msg) w fun _ w' ↦ Tally ct fr hs w' ∧ w'.obj = w.obj ∧ Steady w w' := by
  have hlow : ∀ {n}, n ∈ pages 0 (pgroundup old) → UserPage n := fun hn ↦
    userPage_of_mem_pages (by decide) (pgroundup_le (by decide) hold) hn
  have hstack : ∀ n ∈ stackPages, UserPage n := fun n hn ↦
    userPage_of_mem_pages (by decide) (by decide) hn
  unfold uvmStackUnmap uvmStackSync
  apply ((uvmunmap_spec w (.kern p) _ false).and ((uvmunmap_steady _ _).and
    (uvmunmap_unowned hP h fun n hn ↦ h.not_owned p (hlow hn)))).bind
  rintro _ w1 ⟨heff1, hs1, h1, hobj1⟩
  apply ((uvmunmap_spec w1 (.kern p) _ false).and ((uvmunmap_steady _ _).and
    (uvmunmap_unowned hP h1 fun n hn ↦ h1.not_owned p (hstack n hn)))).bind
  rintro _ w2 ⟨heff2, hs2, h2, hobj2⟩
  have hk2 : w2.there (.kern p) = true := by rw [heff2.core.there, heff1.core.there, hk]
  have hnew' : ∀ n ∈ pages 0 new, UserPage n := fun n hn ↦
    userPage_of_mem_pages (by decide) hnew hn
  apply ((upg2ukpg_spec w2 hsrc _).and (upg2ukpg_tally h2 src _ hk2 hnew')).bind
  rintro ok w3 ⟨⟨_, heff3, -, -⟩, h3, hobj3, hs3⟩
  have hk3 : w3.there (.kern p) = true := by rw [heff3.core.there, hk2]
  rw [ensures_ite]
  refine ⟨fun _ ↦ ?_, fun _ ↦ ensures_halt⟩
  apply (upg2ukpg_tally h3 src _ hk3 hstack).bind
  rintro ok w4 ⟨h4, hobj4, hs4⟩
  rw [ensures_ite, ensures_pure]
  refine ⟨fun _ ↦ ⟨h4, ?_, ?_⟩, fun _ ↦ ensures_halt⟩
  · exact hobj4.trans (hobj3.trans (hobj2.trans hobj1))
  · exact ((hs1.trans hs2).trans hs3).trans hs4

omit [Fintype P] hP

/-! ### The tables change their roles -/

/-- The user table and the image of a process change their roles. -/
def Tbl.swap (p : P) : Tbl P → Tbl P
  | .user q => if q = p then .image q else .user q
  | .image q => if q = p then .user q else .image q
  | .kern q => .kern q

def Owner.swap (p : P) : Owner P O → Owner P O
  | .user q n => if q = p then .image q n else .user q n
  | .image q n => if q = p then .user q n else .image q n
  | .root t => .root (t.swap p)
  | .mid t k => .mid (t.swap p) k
  | .low t k => .low (t.swap p) k
  | x => x

private theorem Tbl.swap_swap (p : P) (t : Tbl P) : (t.swap p).swap p = t := by
  cases t with
  | user q => by_cases h : q = p <;> simp [Tbl.swap, h]
  | image q => by_cases h : q = p <;> simp [Tbl.swap, h]
  | kern q => rfl

private theorem Owner.swap_swap (p : P) (x : Owner P O) : (x.swap p).swap p = x := by
  cases x with
  | user q n => by_cases h : q = p <;> simp [Owner.swap, h]
  | image q n => by_cases h : q = p <;> simp [Owner.swap, h]
  | root t => simp [Owner.swap, Tbl.swap_swap]
  | mid t k => simp [Owner.swap, Tbl.swap_swap]
  | low t k => simp [Owner.swap, Tbl.swap_swap]
  | _ => rfl

/-- Tables swapped between two owners. -/
theorem Owner.table_swap (p : P) (x : Owner P O) : (x.swap p).table = x.table.map (Tbl.swap p) := by
  cases x with
  | user q n => by_cases h : q = p <;> simp [Owner.swap, Owner.table, Tbl.swap, h]
  | image q n => by_cases h : q = p <;> simp [Owner.swap, Owner.table, Tbl.swap, h]
  | _ => simp [Owner.swap, Owner.table, Tbl.swap]

/-- The state after the tables have changed their roles. -/
def World.swapTables (w : World P O F) (p : P) : World P O F :=
  { w with
    pt := update (update w.pt (.user p) (w.pt (.image p)))
      (.image p) (w.pt (.user p)) }

private theorem World.pt_swapTables (w : World P O F) (p : P) (t : Tbl P) :
    (w.swapTables p).pt t = w.pt (t.swap p) := by
  cases t with
  | user q => by_cases h : q = p <;> simp [World.swapTables, Tbl.swap, h]
  | image q => by_cases h : q = p <;> simp [World.swapTables, Tbl.swap, h]
  | kern q => simp [World.swapTables, Tbl.swap]

private theorem World.leaf_swapTables (w : World P O F) (p : P) (t : Tbl P) :
    (w.swapTables p).leaf t = w.leaf (t.swap p) := by
  funext n
  rw [World.leaf, World.leaf, w.pt_swapTables]

private theorem World.owns_swapTables (w : World P O F) (p : P) (x : Owner P O) :
    (w.swapTables p).owns fr x = w.owns fr (x.swap p) := by
  cases x with
  | user q n => by_cases h : q = p <;> simp [World.owns, w.leaf_swapTables, Owner.swap, Tbl.swap, h]
  | image q n => by_cases h :
    q = p <;> simp [World.owns, w.leaf_swapTables, Owner.swap, Tbl.swap, h]
  | stack q =>
    simp only [World.owns, w.leaf_swapTables, Owner.swap, Tbl.swap]
    rfl
  | root t | mid t k | low t k => simp only [World.owns, w.pt_swapTables, Owner.swap]
  | frame q | anon o i | kbuf o i => rfl

private theorem Owner.backing_swap (p : P) (x : Owner P O) : (x.swap p).backing = x.backing := by
  cases x with
  | user q n => by_cases h : q = p <;> simp [Owner.swap, Owner.backing, h]
  | image q n => by_cases h : q = p <;> simp [Owner.swap, Owner.backing, h]
  | _ => rfl

/-- Owners that share go on to share, when there is no other image and neither table of the process
shares with an object. -/
theorem Owner.Shares.swap {p : P} {x y : Owner P O} (h : x.Shares y)
    (himage : ∀ q n, x = .image q n ∨ y = .image q n → q = p)
    (hplain : ∀ n, x = .user p n ∨ y = .user p n → x.backing = none ∧ y.backing = none) :
    (x.swap p).Shares (y.swap p) := by
  cases x with
  | user q n =>
    cases y with
    | user r m =>
      by_cases hq : q = p
      · have hr : r ≠ p := fun hr ↦ h (hq.trans hr.symm)
        simp [Owner.swap, hq, hr, Owner.Shares, hr.symm]
      · by_cases hr : r = p
        · simp [Owner.swap, hq, hr, Owner.Shares]
        · simpa [Owner.swap, hq, hr, Owner.Shares] using h
    | image r m =>
      have hr : r = p := himage r m (.inr rfl)
      have hq : q ≠ p := fun hq ↦ h (hq.trans hr.symm)
      simp [Owner.swap, hq, hr, Owner.Shares]
    | anon o i =>
      have hq : q ≠ p := by
        rintro rfl
        cases (hplain n (.inl rfl)).2
      simp [Owner.swap, hq, Owner.Shares]
    | kbuf o i =>
      have hq : q ≠ p := by
        rintro rfl
        cases (hplain n (.inl rfl)).2
      simp [Owner.swap, hq, Owner.Shares]
    | _ => exact h.elim
  | image q n =>
    cases y with
    | user r m =>
      have hq : q = p := himage q n (.inl rfl)
      have hr : r ≠ p := fun hr ↦ h (hq.trans hr.symm)
      simpa [Owner.swap, hq, hr, Owner.Shares] using hr.symm
    | _ => exact h.elim
  | anon o i =>
    obtain ⟨q, n, rfl⟩ := h.symm.eq_user rfl
    have hq : q ≠ p := by
      rintro rfl
      cases (hplain n (.inr rfl)).1
    simp [Owner.swap, hq, Owner.Shares]
  | kbuf o i =>
    obtain ⟨q, n, rfl⟩ := h.symm.eq_user rfl
    have hq : q ≠ p := by
      rintro rfl
      cases (hplain n (.inr rfl)).1
    simp [Owner.swap, hq, Owner.Shares]
  | _ => exact h.elim

/-- The owners, named by the roles that their tables had. -/
def Owner.swapEquiv (p : P) : Owner P O ≃ Owner P O :=
  ⟨Owner.swap p, Owner.swap p, Owner.swap_swap p, Owner.swap_swap p⟩

/-- A process without mappings takes its image over, when no other process has one. -/
theorem Tally.swap (h : Tally ct fr hs w) {p : P} (hvmas : (w.proc p).vmas = fun _ ↦ none)
    (himage : ∀ q, q ≠ p → ∀ n, w.owns fr (.image q n) = none) :
    Tally (fun x ↦ ct (x.swap p)) fr hs (w.swapTables p) := by
  have howns : (w.swapTables p).owns fr = fun x ↦ w.owns fr (x.swap p) := by
    funext x
    exact w.owns_swapTables p x
  have hnone : ∀ n, w.place p n = none := by
    intro n
    simp [World.place, view, hvmas]
  have himage' : ∀ {x pa q n}, w.owns fr x = some pa → x = .image q n → q = p := by
    rintro x pa q n hx rfl
    by_contra hq
    rw [himage q hq] at hx
    cases hx
  -- neither table of the process maps a page of an object
  have hplain : ∀ {n y pa}, w.owns fr (.user p n) = some pa → w.owns fr y = some pa →
      y.backing = none := by
    intro n y pa hu hy
    cases hb : y.backing with
    | none => rfl
    | some b =>
      have hplace := h.member p n y b pa hu hy hb
      rw [hnone] at hplace
      cases hplace
  constructor
  · intro pa
    have hequiv : holders (fun x : Owner P O ↦ w.owns fr (x.swap p)) pa = holders (w.owns fr) pa :=
      holders_equiv (Owner.swapEquiv p) (fun _ ↦ rfl) pa
    rw [howns, hequiv]
    exact h.count pa
  · intro x y pa hx hy
    rw [howns] at hx hy
    dsimp only at hx hy
    rcases h.once _ _ pa hx hy with heq | hshares
    · left
      rw [← x.swap_swap p, heq, y.swap_swap]
    · right
      have hback := hshares.swap (p := p) ?_ ?_
      · rwa [Owner.swap_swap, Owner.swap_swap] at hback
      · rintro q n (hq | hq)
        · exact himage' hx hq
        · exact himage' hy hq
      · rintro n (hn | hn)
        · rw [hn] at hx
          exact ⟨by rw [hn]; rfl, hplain hx hy⟩
        · rw [hn] at hy
          exact ⟨hplain hy hx, by rw [hn]; rfl⟩
  · exact h.few
  · intro t ht x hx
    rw [howns] at ht ⊢
    apply h.null (t.swap p) ht
    rw [Owner.table_swap, hx]
    rfl
  · exact h.keyed
  · intro q n y b pa hu hy hb
    rw [howns] at hu hy
    by_cases hq : q = p
    · subst hq
      exfalso
      have hu' : w.owns fr (.image q n) = some pa := by simpa [Owner.swap] using hu
      rcases h.once _ _ pa hu' hy with heq | hshares
      · rw [← Owner.backing_swap q, ← heq] at hb
        cases hb
      · obtain ⟨_, _, himg⟩ := hshares.eq_user ((y.backing_swap q).trans hb)
        cases himg
    · have hu' : w.owns fr (.user q n) = some pa := by simpa [Owner.swap, hq] using hu
      exact h.member q n _ b pa hu' hy ((y.backing_swap p).trans hb)
  · exact h.base
  · exact h.stack
  · intro x m hx
    rw [howns]
    exact h.kept _ m hx

end

end Xv6K210.Vm
