import Xv6K210.Vm.Isolation

/-!
# What a forked child reads

Source `kernel/proc/proc.c:556–630`, `kernel/vm/vm.c:581–630`,
`kernel/vm/mmap/mmap.c`. While `fork` copies entries every page of the parent stays where it is and
as readable as it is, and the child gets the same pages; so after a successful `fork` both read what
the parent read, and after a failed one nobody sees a difference.
-/

namespace Xv6K210.Vm

open Xv6K210.Base Prog Function

variable {P O F : Type} {w : World P O F} {p c : P} {f : Nat → Option (Nat × Bool)}
  {g : P → Proc P O F} {S : Set Nat}

/-! ### A child in the making -/

/-- The parent reads `f`; of that the child has some entries, and those of `S` all. -/
structure Cloned (p c : P) (f : Nat → Option (Nat × Bool)) (g : P → Proc P O F) (S : Set Nat)
    (w : World P O F) : Prop where
  proc : w.proc = g
  parent : w.reading p = f
  child : ∀ n, UserPage n → w.reading c n = none ∨ w.reading c n = f n
  done : ∀ n ∈ S, UserPage n → w.reading c n = f n

/-- A clone of fewer pages. -/
theorem Cloned.mono {S' : Set Nat} (h : Cloned p c f g S w) (hsub : S' ⊆ S) :
    Cloned p c f g S' w :=
  ⟨h.proc, h.parent, h.child, fun n hn ↦ h.done n (hsub hn)⟩

private theorem World.reading_congr {w' : World P O F} {q : P}
    (h : w'.leaf (.user q) = w.leaf (.user q)) : w'.reading q = w.reading q := by
  funext n
  rw [World.reading, World.reading, h]

/-- The entries of the two stay. -/
theorem Cloned.still {w' : World P O F} {g' : P → Proc P O F} (h : Cloned p c f g S w)
    (hproc : w'.proc = g') (hp : w'.leaf (.user p) = w.leaf (.user p))
    (hc : w'.leaf (.user c) = w.leaf (.user c)) : Cloned p c f g' S w' := by
  have hchild := World.reading_congr hc
  refine ⟨hproc, (World.reading_congr hp).trans h.parent, fun n hn ↦ ?_, fun n hn hu ↦ ?_⟩
  · rw [hchild]
    exact h.child n hn
  · rw [hchild]
    exact h.done n hn hu

/-- The parent has no entry here. -/
theorem Cloned.skip (h : Cloned p c f g S w) {n : Nat} (hn : w.leaf (.user p) n = none) :
    Cloned p c f g (insert n S) w := by
  refine ⟨h.proc, h.parent, h.child, fun m hm hu ↦ ?_⟩
  rcases hm with rfl | hm
  · have hnone : f m = none := by
      rw [← h.parent, World.reading, hn]
      rfl
    rcases h.child m hu with hchild | hchild
    · rw [hchild, hnone]
    · exact hchild
  · exact h.done m hm hu

/-- The entry of the parent is the child's too; the parent's may be marked. -/
theorem Cloned.give {w' : World P O F} (h : Cloned p c f g S w) {n : Nat} {e e' : Pte}
    (he : w.leaf (.user p) n = some e) (hpa : e'.pa = e.pa) (hr : e'.perm.r = e.perm.r)
    (hproc : w'.proc = w.proc) (hparent : w'.reading p = w.reading p)
    (hchild : w'.leaf (.user c) = update (w.leaf (.user c)) n (some e')) :
    Cloned p c f g (insert n S) w' := by
  have hself : w'.reading c n = f n := by
    rw [← h.parent, World.reading, World.reading, hchild, update_self, he, Option.map_some,
      Option.map_some, hpa, hr]
  have hother : ∀ m, m ≠ n → w'.reading c m = w.reading c m := by
    intro m hm
    rw [World.reading, World.reading, hchild, update_of_ne hm]
  refine ⟨hproc.trans h.proc, hparent.trans h.parent, fun m hu ↦ ?_, fun m hm hu ↦ ?_⟩
  · by_cases hmn : m = n
    · rw [hmn]
      exact .inr hself
    · rw [hother m hmn]
      exact h.child m hu
  · by_cases hmn : m = n
    · rw [hmn]
      exact hself
    · rw [hother m hmn]
      exact h.done m (hm.resolve_left hmn) hu

/-- A loop of rounds that each give the pages of an index. -/
theorem cloned_stopAt {ι : Type} {x : ι → Kern P O F Bool} {T : ι → Set Nat}
    (hstep : ∀ S i w, Cloned p c f g S w → Ensures (x i) w fun ok w' ↦
      w'.reading p = f ∧ w'.proc = g ∧ (ok = true → Cloned p c f g (T i ∪ S) w'))
    (l : List ι) (h : Cloned p c f g S w) :
    Ensures (stopAt x l) w fun r w' ↦ w'.reading p = f ∧ w'.proc = g ∧
      (r = none → Cloned p c f g ({n | ∃ i ∈ l, n ∈ T i} ∪ S) w') := by
  induction l generalizing S w with
  | nil =>
    rw [stopAt, ensures_pure]
    refine ⟨h.parent, h.proc, fun _ ↦ h.mono ?_⟩
    rintro n (⟨i, hi, -⟩ | hn)
    · cases hi
    · exact hn
  | cons i l ih =>
    rw [stopAt, ensures_bind]
    apply (hstep S i w h).mono
    rintro ok w1 ⟨hread1, hproc1, h1⟩
    cases ok with
    | false =>
      rw [if_neg Bool.false_ne_true, ensures_pure]
      exact ⟨hread1, hproc1, by rintro ⟨⟩⟩
    | true =>
      rw [if_pos rfl]
      apply (ih (h1 rfl)).mono
      rintro r w2 ⟨hread2, hproc2, h2⟩
      refine ⟨hread2, hproc2, fun hr ↦ (h2 hr).mono ?_⟩
      rintro n (⟨j, hj, hn⟩ | hn)
      · rcases List.mem_cons.mp hj with rfl | hj
        · exact .inr (.inl hn)
        · exact .inl ⟨j, hj, hn⟩
      · exact .inr (.inr hn)

private theorem Pte.mark_reads (e : Pte) : e.mark.pa = e.pa ∧ e.mark.perm.r = e.perm.r := by
  unfold Pte.mark
  split_ifs <;> exact ⟨rfl, rfl⟩

/-- An entry of the parent is marked. -/
theorem World.reading_mark {w' : World P O F} {n : Nat} {e e' : Pte}
    (he : w.leaf (.user p) n = some e) (hpa : e'.pa = e.pa) (hr : e'.perm.r = e.perm.r)
    (h : w'.leaf (.user p) = update (w.leaf (.user p)) n (some e')) :
    w'.reading p = w.reading p := by
  funext m
  by_cases hm : m = n
  · rw [hm, World.reading, World.reading, h, update_self, he, Option.map_some,
      Option.map_some, hpa, hr]
  · rw [World.reading, World.reading, h, update_of_ne hm]

section

variable [DecidableEq P]

/-- A page of the heap or the stack is given. -/
theorem uvmcopyPage_cloned (hpc : p ≠ c) (h : Cloned p c f g S w) (n : Nat) :
    Ensures (uvmcopyPage (.user p) (.user c) n) w fun ok w' ↦
      w'.reading p = f ∧ w'.proc = g ∧ (ok = true → Cloned p c f g ({n} ∪ S) w') := by
  have hne : Tbl.user p ≠ Tbl.user c := by simpa using hpc
  apply (uvmcopyPage_spec w (.user p) (.user c) n).mono
  rintro ok w' (⟨rfl, hnone, heff⟩ | ⟨e, he, ⟨rfl, heff, -⟩ | ⟨rfl, heff⟩⟩)
  · have hleaf : ∀ t, w'.leaf t = w.leaf t := fun t ↦ by rw [heff.leaf]
    have hproc := heff.core.proc.trans h.proc
    refine ⟨(World.reading_congr (hleaf _)).trans h.parent, hproc, fun _ ↦ ?_⟩
    exact (h.skip hnone).still hproc (hleaf _) (hleaf _)
  · obtain ⟨hpa, hr⟩ := e.mark_reads
    have hparent : w'.reading p = w.reading p := by
      apply World.reading_mark he hpa hr
      rw [heff.leaf, Leaves.put_ne _ hne, Leaves.put_same]
    refine ⟨hparent.trans h.parent, heff.core.proc.trans h.proc, fun _ ↦ ?_⟩
    apply h.give he hpa hr heff.core.proc hparent
    rw [heff.leaf, Leaves.put_same, Leaves.put_ne _ hne.symm]
  · obtain ⟨hpa, hr⟩ := e.mark_reads
    refine ⟨?_, heff.core.proc.trans h.proc, by rintro ⟨⟩⟩
    refine (World.reading_mark he hpa hr ?_).trans h.parent
    rw [heff.leaf, Leaves.put_same]

private theorem uvmcopyRange_cloned (hpc : p ≠ c) (h : Cloned p c f g S w) (start fin : Nat) :
    Ensures (uvmcopyRange (.user p) (.user c) start fin) w fun ok w' ↦
      w'.reading p = f ∧ w'.proc = g ∧
        (ok = true → Cloned p c f g ({n | n ∈ pages start fin} ∪ S) w') := by
  unfold uvmcopyRange
  apply (cloned_stopAt (fun S n w h ↦ uvmcopyPage_cloned hpc h n) (pages start fin) h).bind
  rintro r w1 ⟨hread1, hproc1, h1⟩
  cases r with
  | none =>
    rw [ensures_pure]
    refine ⟨hread1, hproc1, fun _ ↦ (h1 rfl).mono ?_⟩
    rintro n (hn | hn)
    · exact .inl ⟨n, hn, rfl⟩
    · exact .inr hn
  | some n =>
    simp only [ensures_bind, ensures_pure]
    apply (uvmunmap_at w1 (.user c) _ true).mono
    intro _ w2 h2
    refine ⟨?_, h2.proc.trans hproc1, by rintro ⟨⟩⟩
    exact (World.reading_congr (h2.leaf _ (by simpa using hpc))).trans hread1

/-! ### Mappings -/

/-- A page of a mapping is given. -/
theorem forkPage_cloned (hpc : p ≠ c) (h : Cloned p c f g S w) (v : Vma O) (n : Nat) :
    Ensures (forkPage p c v n) w fun ok w' ↦
      w'.reading p = f ∧ w'.proc = g ∧ (ok = true → Cloned p c f g ({n} ∪ S) w') := by
  have hpu : Tbl.user p ≠ Tbl.user c := by simpa using hpc
  apply (forkPage_spec w p c v n).mono
  rintro ok w' (⟨rfl, hnone, heff⟩ | ⟨e, L, e', he, he', hL, heff⟩)
  · have hleaf : ∀ t, w'.leaf t = w.leaf t := fun t ↦ by rw [heff.leaf]
    have hproc := heff.core.proc.trans h.proc
    refine ⟨(World.reading_congr (hleaf _)).trans h.parent, hproc, fun _ ↦ ?_⟩
    exact (h.skip hnone).still hproc (hleaf _) (hleaf _)
  · have hmark : e'.pa = e.pa ∧ e'.perm.r = e.perm.r := by
      rcases he' with rfl | rfl
      · exact ⟨rfl, rfl⟩
      · exact e.mark_reads
    have hparent : w'.leaf (.user p) = L (.user p) → w'.reading p = w.reading p := by
      intro hleaf
      rcases hL with rfl | rfl
      · exact World.reading_congr hleaf
      · exact World.reading_mark he hmark.1 hmark.2 (by rw [hleaf, Leaves.both_user])
    have hchild : L (.user c) = w.leaf (.user c) := by
      rcases hL with rfl | rfl
      · rfl
      · exact Leaves.both_ne _ p n e' hpu.symm (by simp)
    rcases heff with ⟨rfl, heff⟩ | ⟨rfl, heff⟩
    · have hread := hparent (by rw [heff.leaf, Leaves.both_ne _ _ _ _ hpu (by simp)])
      refine ⟨hread.trans h.parent, heff.core.proc.trans h.proc, fun _ ↦ ?_⟩
      apply h.give he hmark.1 hmark.2 heff.core.proc hread
      rw [heff.leaf, Leaves.both_user, hchild]
    · exact ⟨(hparent (by rw [heff.leaf])).trans h.parent, heff.core.proc.trans h.proc,
        by rintro ⟨⟩⟩

/-- The pages of a mapping. -/
def vmaPages (vmas : Fin nvma → Option (Vma O)) (i : Fin nvma) : Set Nat :=
  {n | ∃ v, vmas i = some v ∧ n ∈ pages v.start v.fin}

private theorem forkPages_cloned (hpc : p ≠ c) (h : Cloned p c f g S w) (i : Fin nvma) :
    Ensures (forkPages p c i) w fun ok w' ↦ w'.reading p = f ∧ w'.proc = g ∧
      (ok = true → Cloned p c f g (vmaPages (g p).vmas i ∪ S) w') := by
  unfold forkPages
  rw [ensures_bind, ensures_get, h.proc]
  cases hv : (g p).vmas i with
  | none =>
    rw [ensures_pure]
    refine ⟨h.parent, h.proc, fun _ ↦ h.mono ?_⟩
    rintro n (⟨v, hv', -⟩ | hn)
    · rw [hv] at hv'
      cases hv'
    · exact hn
  | some v =>
    apply (cloned_stopAt (fun S n w h ↦ forkPage_cloned hpc h v n) (pages v.start v.fin) h).bind
    rintro r w1 ⟨hread1, hproc1, h1⟩
    rw [ensures_pure]
    refine ⟨hread1, hproc1, fun hr ↦ (h1 (by simpa using hr)).mono ?_⟩
    rintro n (⟨v', hv', hn⟩ | hn)
    · rw [hv] at hv'
      cases hv'
      exact .inl ⟨n, hn, rfl⟩
    · exact .inr hn

variable [DecidableEq O] [DecidableEq F]

private theorem vmaFork_cloned (hpc : p ≠ c) (h : Cloned p c f g S w)
    (hnone : ∀ i, (w.proc c).vmas i = none) :
    Ensures (vmaFork p c) w fun ok w' ↦ w'.reading p = f ∧ w'.proc p = g p ∧
      (ok = true → ∃ g', g' p = g p ∧
        Cloned p c f g' ({n | ∃ i, n ∈ vmaPages (g p).vmas i} ∪ S) w') := by
  unfold vmaFork
  apply (forkSlots_spec hpc hnone).bind
  intro _ w1 hslots
  have hleaf : w1.leaf = w.leaf := by rw [hslots.leaf, Leaves.unmap_nil]
  have hsame : w1.proc p = g p := by rw [hslots.own.only.proc p hpc, h.proc]
  have h1 : Cloned p c f w1.proc S w1 := h.still rfl (by rw [hleaf]) (by rw [hleaf])
  apply (cloned_stopAt (fun S i w h ↦ forkPages_cloned hpc h i) slots h1).bind
  rintro r w2 ⟨hread2, hproc2, h2⟩
  cases r with
  | none =>
    rw [ensures_pure]
    refine ⟨hread2, by rw [hproc2, hsame], fun _ ↦ ⟨w1.proc, hsame, (h2 rfl).mono ?_⟩⟩
    rw [hsame]
    rintro n (⟨i, hn⟩ | hn)
    · exact .inl ⟨i, List.mem_finRange i, hn⟩
    · exact .inr hn
  | some i =>
    simp only [ensures_bind, ensures_pure]
    apply (vmaDestroyAll_own w2 c).mono
    intro _ w3 hown
    refine ⟨?_, by rw [hown.proc p hpc, hproc2, hsame], by rintro ⟨⟩⟩
    exact (World.reading_congr (hown.leaf _ (by simpa using hpc) (by simp))).trans hread2

/-! ### The whole call -/

/-- The pages that `fork` goes through. -/
def area (q : Proc P O F) : Set Nat :=
  {n | n ∈ pages 0 q.sz ∨ n ∈ stackPages ∨ ∃ i, n ∈ vmaPages q.vmas i}

omit [DecidableEq P] [DecidableEq O] [DecidableEq F] in
private theorem Covered.mem_area {q : Proc P O F} (hlay : Layout q.sz q.vmas) {n : Nat}
    (h : Covered q n) : n ∈ area q := by
  rcases h with hheap | hstack | ⟨i, v, hv, hc⟩
  · left
    rw [mem_pages (Nat.zero_mod _)]
    unfold pgroundup pgsize at *
    omega
  · exact .inr (.inl ((mem_pages (by decide)).mpr hstack))
  · exact .inr (.inr ⟨i, v, hv, (hlay.ok i v hv).mem_pages.mpr hc⟩)

omit [DecidableEq P] [DecidableEq O] [DecidableEq F] in
/-- When the child has all that `fork` goes through, it reads what the parent reads. -/
theorem Cloned.complete (h : Cloned p c f g S w) {q : Proc P O F} {u : Nat → Option Pte}
    (hlay : Layout q.sz q.vmas) (hfoot : Foot q u)
    (hf : f = fun n ↦ (u n).map fun e ↦ (e.pa, e.perm.r)) (hS : area q ⊆ S) {n : Nat}
    (hn : UserPage n) : w.reading c n = f n := by
  cases hu : u n with
  | none =>
    have hnone : f n = none := by
      rw [hf]
      dsimp only
      rw [hu]
      rfl
    rcases h.child n hn with hchild | hchild
    · rw [hchild, hnone]
    · exact hchild
  | some e => exact h.done n (hS ((hfoot n e hn hu).mem_area hlay)) hn

private theorem forkCopy_cloned (hpc : p ≠ c) (h : Cloned p c f g ∅ w)
    (hnone : ∀ i, (w.proc c).vmas i = none) :
    Ensures (forkCopy p c) w fun ok w' ↦ w'.reading p = f ∧
      (ok = true → ∃ g', Cloned p c f g' (area (g p)) w') := by
  have hsync : ∀ {w1 : World P O F} {g1 : P → Proc P O F} {S1 : Set Nat} (ns : List Nat),
      Cloned p c f g1 S1 w1 →
      Ensures (upg2ukpg (.user c) (.kern c) ns) w1 fun _ w' ↦ Cloned p c f g1 S1 w' := by
    intro w1 g1 S1 ns h1
    apply (upg2ukpg_spec w1 (by simp) ns).mono
    rintro ok w2 ⟨ms, heff, -⟩
    exact h1.still (heff.core.proc.trans h1.proc) (by rw [heff.leaf, Leaves.copy_ne _ (by simp)])
      (by rw [heff.leaf, Leaves.copy_ne _ (by simp)])
  unfold forkCopy
  rw [ensures_bind, ensures_get, ensures_bind, h.proc]
  apply (uvmcopyRange_cloned hpc h 0 (g p).sz).mono
  rintro ok w1 ⟨hread1, hproc1, h1⟩
  rw [ensures_ite, ensures_pure]
  refine ⟨fun hok ↦ ?_, fun _ ↦ ⟨hread1, by rintro ⟨⟩⟩⟩
  have hset : Ensures (setProc c fun q ↦ { q with sz := (g p).sz }) w1 fun _ w' ↦
      w'.pt = w1.pt ∧ w'.proc p = g p ∧ ∀ i, (w'.proc c).vmas i = none := by
    unfold setProc
    rw [ensures_modify]
    refine ⟨rfl, ?_, fun i ↦ ?_⟩
    · dsimp only
      rw [update_of_ne hpc, hproc1]
    · dsimp only
      rw [update_self, hproc1, ← h.proc]
      exact hnone i
  apply hset.bind
  rintro _ w2 ⟨hpt2, hp2, hnone2⟩
  have hleaf2 : ∀ t, w2.leaf t = w1.leaf t := fun t ↦ by rw [World.leaf_eq hpt2]
  have h2 : Cloned p c f w2.proc _ w2 := (h1 hok).still rfl (hleaf2 _) (hleaf2 _)
  apply (uvmcopyRange_cloned hpc h2 userStackStart userStackTop).bind
  rintro ok w3 ⟨hread3, hproc3, h3⟩
  rw [ensures_ite, ensures_pure]
  refine ⟨fun hok ↦ ?_, fun _ ↦ ⟨hread3, by rintro ⟨⟩⟩⟩
  apply (vmaFork_cloned hpc (h3 hok) (by rwa [hproc3])).bind
  rintro ok w4 ⟨hread4, -, h4⟩
  rw [ensures_ite, ensures_pure]
  refine ⟨fun hok ↦ ?_, fun _ ↦ ⟨hread4, by rintro ⟨⟩⟩⟩
  obtain ⟨g4, -, hcloned4⟩ := h4 hok
  rw [hp2] at hcloned4
  apply (hsync (pages 0 (g p).sz) hcloned4).bind
  intro ok w5 h5
  rw [ensures_ite, ensures_pure]
  refine ⟨fun _ ↦ ?_, fun _ ↦ ⟨h5.parent, by rintro ⟨⟩⟩⟩
  apply (hsync stackPages h5).mono
  intro ok w6 h6
  refine ⟨h6.parent, fun _ ↦ ⟨g4, h6.mono ?_⟩⟩
  rintro n (hn | hn | hn)
  · exact .inr (.inr (.inl hn))
  · exact .inr (.inl hn)
  · exact .inl hn

omit [DecidableEq O] [DecidableEq F] in
private theorem forkSync_user (w : World P O F) (p : P) :
    Ensures (forkSync p) w fun _ w' ↦ ∀ q, w'.leaf (.user q) = w.leaf (.user q) := by
  have hstep : ∀ (w1 : World P O F) (ns : List Nat),
      Ensures (upg2ukpg (.user p) (.kern p) ns) w1 fun _ w' ↦
        ∀ q, w'.leaf (.user q) = w1.leaf (.user q) := by
    intro w1 ns
    apply (upg2ukpg_spec w1 (by simp) ns).mono
    rintro ok w2 ⟨ms, heff, -⟩ q
    rw [heff.leaf, Leaves.copy_ne _ (by simp)]
  unfold forkSync uvmStackSync
  rw [ensures_bind, ensures_get, ensures_bind]
  apply (hstep w _).mono
  intro ok w1 h1
  rw [ensures_ite]
  refine ⟨fun _ ↦ ?_, fun _ ↦ ensures_halt⟩
  apply (hstep w1 _).bind
  intro ok w2 h2
  rw [ensures_ite, ensures_pure]
  exact ⟨fun _ q ↦ (h2 q).trans (h1 q), fun _ ↦ ensures_halt⟩

/-- `fork` leaves where the parent's pages are, and a child that is made has the same. -/
theorem fork_reading (b : Boot P) (hpc : p ≠ c) (hunused : (w.proc c).state = .unused)
    (hspace : SpaceAt w p) :
    Ensures (fork b p c) w fun ok w' ↦ w'.reading p = w.reading p ∧
      (ok = true → ∀ n, UserPage n → w'.reading c n = w.reading p n) := by
  unfold fork
  apply (setHeld_still w true).bind
  rintro _ w1 ⟨hproc1, hstill1⟩
  apply (allocproc_spec b w1 c (by rw [hproc1, hunused])).bind
  rintro ok w2 ⟨honly2, hnew2, -⟩
  have hread2 : w2.reading p = w.reading p :=
    World.reading_congr (by rw [honly2.leaf _ (by simpa using hpc) (by simp), hstill1.leaf])
  have hp2 : w2.proc p = w.proc p := by rw [honly2.proc p hpc, hproc1]
  rw [ensures_ite]
  refine ⟨fun hok ↦ ?_, fun _ ↦ ?_⟩
  · have hborn := hnew2 hok
    have h2 : Cloned p c (w.reading p) w2.proc ∅ w2 := by
      refine ⟨rfl, hread2, fun n hn ↦ .inl ?_, by rintro n ⟨⟩⟩
      rw [World.reading, hborn.user.leaf n hn]
      rfl
    apply (forkCopy_cloned hpc h2 hborn.vmas).bind
    rintro ok w3 ⟨hread3, hcloned3⟩
    rw [ensures_ite]
    refine ⟨fun hok ↦ ?_, fun _ ↦ ?_⟩
    · obtain ⟨g3, h3⟩ := hcloned3 hok
      have hset : ∀ w4 : World P O F,
          Ensures (setProc c fun q ↦ { q with state := .live, parent := some p }) w4 fun _ w' ↦
            w'.leaf = w4.leaf := by
        intro w4
        unfold setProc
        rw [ensures_modify]
        rfl
      apply (forkFiles_spec w3 p c _).bind
      rintro _ w4 ⟨-, hstill4⟩
      apply (hset w4).bind
      intro _ w5 hleaf5
      apply (setHeld_still w5 false).bind
      rintro _ w6 ⟨-, hstill6⟩
      simp only [ensures_bind, ensures_pure]
      apply (forkSync_user w6 p).mono
      intro _ w7 h7
      have hleaf : ∀ q, w7.leaf (.user q) = w3.leaf (.user q) := by
        intro q
        rw [h7 q, hstill6.leaf, hleaf5, hstill4.leaf]
      refine ⟨(World.reading_congr (hleaf p)).trans hread3, fun _ n hn ↦ ?_⟩
      rw [World.reading_congr (hleaf c)]
      exact h3.complete hspace.layout hspace.foot rfl (by rw [hp2]) hn
    · apply (forkSync_user w3 p).bind
      intro _ w4 h4
      apply (freeproc_only b w4 c).bind
      intro _ w5 honly5
      simp only [ensures_bind, ensures_pure]
      apply (setHeld_still w5 false).mono
      rintro _ w6 ⟨-, hstill6⟩
      refine ⟨(World.reading_congr ?_).trans hread3, by rintro ⟨⟩⟩
      rw [hstill6.leaf, honly5.leaf _ (by simpa using hpc) (by simp), h4 p]
  · simp only [ensures_bind, ensures_pure]
    apply (setHeld_still w2 false).mono
    rintro _ w3 ⟨-, hstill3⟩
    exact ⟨(World.reading_congr (by rw [hstill3.leaf])).trans hread2, by rintro ⟨⟩⟩

variable [Fintype P] (hP : Fintype.card P ≤ nproc) [Fintype O] {b : Boot P}
  {data : Nat → List UInt8} {es : List (Event P O F)}

include hP

/-- What a `fork` after a run leaves of the memory of everybody but the child. -/
theorem fork_loads (h : Runs (Step b) (World.boot data) es w) (hlive : (w.proc p).state = .live)
    (hunused : (w.proc c).state = .unused) (answers : List (Option (Nat × O))) (io : List Bool) :
    Ensures (fork b p c) { w with answers := answers, io := io, slept := false } fun ok w' ↦
      (∀ q, q ≠ c → w'.proc q = w.proc q ∧
        ∀ va < maxuva, load w' (.user q) va = load w (.user q) va) ∧
      (ok = true → ∀ va < maxuva, load w' (.user c) va = load w' (.user p) va) ∧
      (ok = false → Vacant c w') := by
  obtain ⟨haccounts, hspaces, hbooks⟩ := accounts_of_runs hP h
  set w0 : World P O F := { w with answers := answers, io := io, slept := false }
  have hquiet : Quiet w w0 := .of_eq rfl rfl rfl rfl rfl
  have h0 := haccounts.quiet hquiet rfl rfl
  have halive : Alive w0 p := (hspaces p hlive).same (hquiet.same p)
  have hset := h0.settled c
  have hpc : p ≠ c := by
    rintro rfl
    rw [hunused] at hlive
    cases hlive
  have hvmas := ((hbooks.quiet hquiet).idle c (by
    change (w.proc c).state ≠ .live
    rw [hunused]
    rintro ⟨⟩)).vmas
  have hfree : (w0.proc c).state = .unused := hunused
  apply ((fork_reading b hpc hfree halive.space).and ((fork_spec b hpc hfree halive.space).and
    (fork_tally hP b hpc (h0.tally.told fun _ _ ↦ true) halive (h0.settled p).size hfree
      (hset.idle hfree) hset.image hvmas hset.size (w0.told_objects _)))).mono
  rintro ok w' ⟨⟨hread, hchild⟩, ⟨hpair, -⟩, htally, -, -, hvacant⟩
  refine ⟨fun q hq ↦ ⟨hpair.proc q hq, fun va hva ↦ ?_⟩, fun hok va hva ↦ ?_, hvacant⟩
  · apply htally.load_eq hva rfl
    by_cases hqp : q = p
    · rw [hqp, hread]
    · rw [World.reading_congr (hpair.leaf _ (by simpa using hqp) (by simp) (by simpa using hq)
        (by simp))]
  · have hn : UserPage (va / pgsize) := (Nat.div_mul_le_self va pgsize).trans_lt hva
    rw [load_eq, load_eq, hchild hok _ hn, hread]

/-- In every state after a run, the child of a successful `fork` reads what its parent read, at
every address of user memory. -/
theorem fork_child_loads (h : Runs (Step b) (World.boot data) es w)
    (hlive : (w.proc p).state = .live) (hunused : (w.proc c).state = .unused)
    {answers : List (Option (Nat × O))} {io : List Bool} {w' : World P O F}
    (hfork : fork b p c { w with answers := answers, io := io, slept := false } = .ok (true, w'))
    {va : Nat} (hva : va < maxuva) :
    load w' (.user c) va = load w (.user p) va ∧ load w' (.user p) va = load w (.user p) va := by
  have hpc : p ≠ c := by
    rintro rfl
    rw [hunused] at hlive
    cases hlive
  obtain ⟨hothers, hchild, -⟩ := (fork_loads hP h hlive hunused answers io).of_ok _ _ hfork
  have hparent := (hothers p hpc).2 va hva
  exact ⟨(hchild rfl va hva).trans hparent, hparent⟩

/-- In every state after a run, a `fork` that fails leaves the records of all other processes and
what they read, and the slot of the child without tables, stack and trap frame. -/
theorem failed_fork_invisible (h : Runs (Step b) (World.boot data) es w)
    (hlive : (w.proc p).state = .live) (hunused : (w.proc c).state = .unused)
    {answers : List (Option (Nat × O))} {io : List Bool} {w' : World P O F}
    (hfork : fork b p c { w with answers := answers, io := io, slept := false } = .ok (false, w')) :
    (∀ q, q ≠ c → w'.proc q = w.proc q ∧
      ∀ va < maxuva, load w' (.user q) va = load w (.user q) va) ∧ Vacant c w' := by
  obtain ⟨hothers, -, hvacant⟩ := (fork_loads hP h hlive hunused answers io).of_ok _ _ hfork
  exact ⟨hothers, hvacant rfl⟩

end

/-- The first process forks with these pages. -/
def smallFork (pages : List Nat) (w : World Bool (Fin 64) Nat) :
    Except String (Bool × World Bool (Fin 64) Nat) :=
  fork .small false true
    { w with answers := smallPages pages, io := [], slept := false }

/-- Whether it succeeds, if it returns. -/
def smallForked (pages : List Nat) (w : World Bool (Fin 64) Nat) : Option Bool :=
  (smallFork pages w).toOption.map Prod.fst

private theorem exists_of_smallForked {pages : List Nat} {w : World Bool (Fin 64) Nat} {x : Bool}
    (h : smallForked pages w = some x) : ∃ w', smallFork pages w = .ok (x, w') := by
  unfold smallForked at h
  cases hfork : smallFork pages w with
  | error e =>
    rw [hfork] at h
    cases h
  | ok r =>
    rw [hfork] at h
    exact ⟨r.2, by rw [← Option.some.inj h]⟩

/-- A child that loads what its parent loads. -/
theorem fork_child_loads_small : ∃ w w' : World Bool (Fin 64) Nat,
    (∃ es, Runs (Step .small) (World.boot fun _ ↦ []) es w) ∧
    smallFork (List.range' 30 20) w = .ok (true, w') ∧ load w (.user false) 0 = some 5 ∧
    load w' (.user true) 0 = some 5 := by
  have hafter : ((World.boot fun _ ↦ []).after Boot.small
      [⟨.userinit fun _ ↦ 5, smallPages (List.range' 10 20), []⟩]).any
        fun w ↦ ((w.proc false).state = .live ∧ (w.proc true).state = .unused) ∧
          load w (.user false) 0 = some 5 ∧ smallForked (List.range' 30 20) w = some true := by
    decide +kernel
  obtain ⟨w, hrun, hgood⟩ := World.runs_of_after hafter
  obtain ⟨⟨hlive, hunused⟩, hload, hresult⟩ := of_decide_eq_true hgood
  obtain ⟨w', hfork⟩ := exists_of_smallForked hresult
  refine ⟨w, w', ⟨_, hrun⟩, hfork, hload, ?_⟩
  rw [← hload]
  exact (fork_child_loads (by decide) hrun hlive hunused hfork (by decide)).1

/-- There is no page for the tables of the child. -/
theorem failed_fork_invisible_small : ∃ w w' : World Bool (Fin 64) Nat,
    (∃ es, Runs (Step .small) (World.boot fun _ ↦ []) es w) ∧
    smallFork [30, 31, 32] w = .ok (false, w') ∧ Vacant true w' ∧
    load w' (.user false) 0 = load w (.user false) 0 := by
  have hafter : ((World.boot fun _ ↦ []).after Boot.small
      [⟨.userinit fun _ ↦ 5, smallPages (List.range' 10 20), []⟩]).any
        fun w ↦ ((w.proc false).state = .live ∧ (w.proc true).state = .unused) ∧
          smallForked [30, 31, 32] w = some false := by
    decide +kernel
  obtain ⟨w, hrun, hgood⟩ := World.runs_of_after hafter
  obtain ⟨⟨hlive, hunused⟩, hresult⟩ := of_decide_eq_true hgood
  obtain ⟨w', hfork⟩ := exists_of_smallForked hresult
  obtain ⟨hothers, hvacant⟩ := failed_fork_invisible (by decide) hrun hlive hunused hfork
  exact ⟨w, w', ⟨_, hrun⟩, hfork, hvacant, (hothers false (by decide)).2 0 (by decide)⟩

end Xv6K210.Vm
