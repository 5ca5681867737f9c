import Xv6K210.Sv39.Mapping
import Xv6K210.Vm.NewSpace

/-!
# Page tables of the processes, in memory

A table in memory realizes one of the model when it holds the same entry for every page. The
routines of both keep that, where both succeed or both fail for want of a page.
-/

namespace Xv6K210.Vm

open Xv6K210.Base Prog

/-- The permissions among the flags of a word. -/
def Perm.ofFlags (f : BitVec 64) : Perm :=
  ⟨f.getLsbD 1, f.getLsbD 2, f.getLsbD 3, f.getLsbD 4, f.getLsbD 8⟩

/-- The entry that a word stands for. -/
def Pte.ofWord (e : BitVec 64) : Pte :=
  ⟨(Sv39.pte2pa e).toNat / pgsize, .ofFlags (Sv39.pteFlags e)⟩

private theorem Perm.ofFlags_valid (f : BitVec 64) : ofFlags (f ||| Sv39.pteV) = ofFlags f := by
  simp [ofFlags, Sv39.pteV]

private theorem Pte.ofWord_mapped (pa : BitVec 64) {perm : BitVec 64}
    (h : Sv39.pteFlags perm = perm) :
    ofWord (Sv39.mapped pa perm 0) = ⟨pa.toNat / pgsize, .ofFlags perm⟩ := by
  obtain ⟨hpa, hflags⟩ := Sv39.mapped_decodes pa 0 h
  rw [ofWord, hpa, hflags, Perm.ofFlags_valid, Nat.zero_mul, BitVec.add_zero,
    Sv39.toNat_pgrounddown, pgsize, Nat.mul_div_cancel _ (by decide)]

variable {P O F : Type}

/-- A table in memory holds the entries of a table of the model. -/
structure Realizes (pagetable : BitVec 64) (r : Sv39.Ram) (w : World P O F) (t : Tbl P) : Prop where
  tree : Sv39.Tree pagetable r
  entry : ∀ va < Sv39.maxva,
    (Sv39.lookup pagetable va r).map Pte.ofWord = w.leaf t (Sv39.vpn va)

variable [DecidableEq P] {pagetable va : BitVec 64} {r r' : Sv39.Ram} {w : World P O F} {t : Tbl P}

/-- A table that `uvmcreate` makes realizes the one that it makes in the model. -/
theorem realizes_uvmcreate (h : Sv39.uvmcreate r = (some pagetable, r')) :
    Ensures (uvmcreate t) w fun ok w' ↦ ok = true → Realizes pagetable r' w' t := by
  obtain ⟨htree, hnone⟩ := Sv39.uvmcreate_tree h
  apply (uvmcreate_spec w t).mono
  rintro ok w' ⟨-, hblank⟩ hok
  refine ⟨htree, fun va hva ↦ ?_⟩
  rw [(hblank hok).2, Sv39.lookup_eq hva, hnone, Option.map_none]

/-- `mappages` of the model, called as the one in memory is. -/
def mapWord (t : Tbl P) (va pa perm : BitVec 64) : Kern P O F Bool :=
  mappages t (Sv39.vpn va) (pa.toNat / pgsize) (.ofFlags perm)

/-- `mappages`, of a page that is not mapped. -/
theorem Realizes.mappages (h : Realizes pagetable r w t) (hva : va % Sv39.pgsize = 0)
    (hend : va < Sv39.maxva) (hnone : w.leaf t (Sv39.vpn va) = none) {pa perm : BitVec 64}
    (hperm : Sv39.pteFlags perm = perm) {ret : Int}
    (hmap : Sv39.mappages pagetable va Sv39.pgsize pa perm r = some (ret, r')) :
    Ensures (mapWord t va pa perm) w fun b w' ↦ (b = true ↔ ret = 0) →
      Realizes pagetable r' w' t := by
  have haligned : va.toNat % 4096 = 0 := (Sv39.toNat_end 0 hva).1
  have hlt : va.toNat < 0x4000000000 := hend
  have hpage : Sv39.pgsize.toNat = 4096 := rfl
  have hmax : Sv39.maxva.toNat = 0x4000000000 := rfl
  have hlast : Sv39.vpn (va + Sv39.pgsize - 1) = Sv39.vpn va := by
    have hsub : (va + Sv39.pgsize - 1).toNat = va.toNat + 4095 := by
      rw [Sv39.pgsize]
      bv_omega
    rw [Sv39.vpn, Sv39.vpn, hsub]
    omega
  have hfree : ∀ va' < Sv39.maxva, Sv39.vpn va ≤ Sv39.vpn va' →
      Sv39.vpn va' ≤ Sv39.vpn (va + Sv39.pgsize - 1) → Sv39.leaf pagetable r va' = none := by
    intro va' hva' hge hle
    rw [hlast] at hle
    have hentry := h.entry va' hva'
    rw [Nat.le_antisymm hle hge, hnone, Option.map_eq_none_iff] at hentry
    rw [← Sv39.lookup_eq hva', hentry]
  obtain ⟨_, _, m, hmap', hm, hleaf⟩ :=
    Sv39.mappages_maps pa perm h.tree (by decide) (by omega) hfree
  cases hmap.symm.trans hmap'
  have htree : Sv39.Tree pagetable r' := Sv39.mappagesLoop_tree h.tree hmap
  apply (mappages_spec w t _ _ _).mono
  intro b w' hb hret
  refine ⟨htree, fun va' hva' ↦ ?_⟩
  rw [Sv39.lookup_eq hva', hleaf va' hva']
  have hentry := h.entry va' hva'
  rw [Sv39.lookup_eq hva'] at hentry
  rw [hlast, Nat.sub_self] at hm
  obtain ⟨hb, -, heff⟩ | ⟨hb, heff⟩ := hb
  · -- both enter the page
    obtain ⟨-, rfl⟩ | ⟨hfail, -⟩ := hm
    · rw [heff.leaf, Leaves.put_apply]
      by_cases hsame : Sv39.vpn va' = Sv39.vpn va
      · rw [if_pos (by omega), if_pos ⟨rfl, hsame⟩, hsame, Nat.sub_self, Option.map_some,
          Pte.ofWord_mapped pa hperm]
      · rw [if_neg (by omega), if_neg fun hc ↦ hsame hc.2, hentry]
    · exact absurd ((hret.mp hb).symm.trans hfail) (by decide)
  · -- both lack a page for the levels
    obtain ⟨hok, -⟩ | ⟨-, hm⟩ := hm
    · exact absurd (hb.symm.trans (hret.mpr hok)) Bool.false_ne_true
    · rw [heff.leaf, if_neg (by omega), hentry]

/-- `uvmunmap`, of a range from which no page of the table is freed. -/
theorem Realizes.uvmunmap (h : Realizes pagetable r w t) {npages : BitVec 64} {doFree : Bool}
    (hforeign : ∀ va' < Sv39.maxva, va ≤ va' → va' < va + npages * Sv39.pgsize →
      ∀ e, Sv39.lookup pagetable va' r = some e → Sv39.Foreign pagetable r doFree e)
    (hr : Sv39.uvmunmap pagetable va npages doFree r = some r') :
    Ensures (uvmunmap t (pages va.toNat (va + npages * Sv39.pgsize).toNat) doFree) w
      fun _ w' ↦ Realizes pagetable r' w' t := by
  have hforeign' : ∀ va' < Sv39.maxva, va ≤ va' → va' < va + npages * Sv39.pgsize →
      ∀ e, Sv39.leaf pagetable r va' = some e → Sv39.Foreign pagetable r doFree e := by
    intro va' hva' hge hlt e he
    exact hforeign va' hva' hge hlt e ((Sv39.lookup_eq hva').trans he)
  obtain ⟨hiff, hall⟩ := Sv39.uvmunmap_unmaps h.tree hforeign'
  obtain ⟨htree, hleaf⟩ := hall r' hr
  obtain ⟨haligned, hend⟩ := Sv39.toNat_end npages (hiff.mp ⟨r', hr⟩).1
  apply (uvmunmap_spec w t _ doFree).mono
  rintro - w' heff
  refine ⟨htree, fun va' hva' ↦ ?_⟩
  have hmem : Sv39.vpn va' ∈ pages va.toNat (va + npages * Sv39.pgsize).toNat ↔
      va ≤ va' ∧ va' < va + npages * Sv39.pgsize := by
    rw [mem_pages haligned, Sv39.vpn, pgsize, BitVec.le_def, BitVec.lt_def]
    omega
  rw [Sv39.lookup_eq hva', hleaf va' hva', heff.leaf, Leaves.drop_apply]
  by_cases hin : va ≤ va' ∧ va' < va + npages * Sv39.pgsize
  · rw [if_pos hin, if_pos ⟨rfl, hmem.mpr hin⟩, Option.map_none]
  · rw [if_neg hin, if_neg fun hc ↦ hin (hmem.mp hc.2), ← Sv39.lookup_eq hva', h.entry va' hva']

/-! ### Runs -/

/-- Calls that are made on a table in memory and on a table of the model, with anything in between
that leaves the pages of the one and the entries of the other alone. Both return with the same
answer. A page is mapped where there was none, and no page of the table is freed. -/
inductive Together (t : Tbl P) : BitVec 64 → Sv39.Ram → World P O F → Prop
  | create {pagetable : BitVec 64} {r r' : Sv39.Ram} {w w' : World P O F} :
    Sv39.uvmcreate r = (some pagetable, r') → uvmcreate t w = .ok (true, w') →
    Together t pagetable r' w'
  | mappages {pagetable va pa perm : BitVec 64} {r r' : Sv39.Ram} {w w' : World P O F} {ret : Int}
    {b : Bool} : Together t pagetable r w → va % Sv39.pgsize = 0 → va < Sv39.maxva →
    w.leaf t (Sv39.vpn va) = none → Sv39.pteFlags perm = perm →
    Sv39.mappages pagetable va Sv39.pgsize pa perm r = some (ret, r') →
    mapWord t va pa perm w = .ok (b, w') → (b = true ↔ ret = 0) → Together t pagetable r' w'
  | uvmunmap {pagetable va npages : BitVec 64} {doFree : Bool} {r r' : Sv39.Ram}
    {w w' : World P O F} : Together t pagetable r w →
    (∀ va' < Sv39.maxva, va ≤ va' → va' < va + npages * Sv39.pgsize →
      ∀ e, Sv39.lookup pagetable va' r = some e → Sv39.Foreign pagetable r doFree e) →
    Sv39.uvmunmap pagetable va npages doFree r = some r' →
    uvmunmap t (pages va.toNat (va + npages * Sv39.pgsize).toNat) doFree w = .ok ((), w') →
    Together t pagetable r' w'
  | other {pagetable : BitVec 64} {r r' : Sv39.Ram} {w w' : World P O F} :
    Together t pagetable r w →
    (∀ p, Sv39.IsTable pagetable r p → r'.word p = r.word p ∧ r'.quota p ≠ 0) →
    w'.leaf t = w.leaf t → Together t pagetable r' w'

/-- The table in memory realizes the one of the model all along. -/
theorem Together.realizes (h : Together t pagetable r w) : Realizes pagetable r w t := by
  induction h with
  | create hmem hmodel => exact (realizes_uvmcreate hmem).of_ok _ _ hmodel rfl
  | mappages _ hva hend hnone hperm hmem hmodel hret ih =>
    exact (ih.mappages hva hend hnone hperm hmem).of_ok _ _ hmodel hret
  | uvmunmap _ hforeign hmem hmodel ih => exact (ih.uvmunmap hforeign hmem).of_ok _ _ hmodel
  | other _ hframe hleaf ih =>
    obtain ⟨htree, hsame, -, -⟩ := ih.tree.frame hframe
    refine ⟨htree, fun va hva ↦ ?_⟩
    rw [hleaf, ← ih.entry va hva, Sv39.lookup_eq hva, Sv39.lookup_eq hva, hsame]

/-- After every run of calls the `walk` of the model finds the entry that the one in memory
reads. -/
theorem walk_reads_memory (h : Together t pagetable r w) (hva : va < Sv39.maxva) :
    walk t (Sv39.vpn va) w = .ok ((Sv39.lookup pagetable va r).map Pte.ofWord, w) := by
  have hlt : va.toNat < 0x4000000000 := hva
  have hn : ¬ maxpage ≤ Sv39.vpn va := by
    rw [maxpage, Sv39.vpn]
    omega
  rw [h.realizes.entry va hva]
  change (if maxpage ≤ Sv39.vpn va then Prog.halt "walk" else pure (w.leaf t (Sv39.vpn va))) w = _
  rw [if_neg hn]
  rfl

/-- A kernel in which four pages are free. -/
def fourPages : World Unit Nat Nat :=
  { World.boot fun _ ↦ [] with answers := [some (16, 0), some (17, 0), some (18, 0), some (19, 0)] }

/-- Two pages are mapped on both sides, in two tables of the lowest level, and the first is unmapped
again. -/
theorem walk_reads_memory_unmapped : ∃ (r : Sv39.Ram) (w : World Unit Nat Nat),
    Together (.user ()) 0x80500000 r w ∧ walk (.user ()) 0x1FF w = .ok (none, w) ∧
      walk (.user ()) 0x200 w = .ok (some ⟨0x80401, ⟨true, true, false, true, false⟩⟩, w) := by
  have hmem : ((Sv39.mappages 0x80500000 0x1FF000 Sv39.pgsize 0x80400000 0x16
      (Sv39.uvmcreate Sv39.start).2).any fun o1 ↦ o1.1 = 0 ∧
        (Sv39.mappages 0x80500000 0x200000 Sv39.pgsize 0x80401000 0x16 o1.2).any fun o2 ↦
          o2.1 = 0 ∧ (Sv39.uvmunmap 0x80500000 0x1FF000 1 false o2.2).any fun r ↦
            Sv39.lookup 0x80500000 0x1FF000 r = none ∧ (Sv39.lookup 0x80500000 0x200000 r).map
              Pte.ofWord = some ⟨0x80401, ⟨true, true, false, true, false⟩⟩) = true := by
    decide +kernel
  have hmodel : returns (uvmcreate (.user ())) fourPages (fun b w1 ↦
      b && decide (w1.leaf (.user ()) (Sv39.vpn 0x1FF000) = none) &&
        returns (mapWord (.user ()) 0x1FF000 0x80400000 0x16) w1 fun b w2 ↦
          b && decide (w2.leaf (.user ()) (Sv39.vpn 0x200000) = none) &&
            returns (mapWord (.user ()) 0x200000 0x80401000 0x16) w2 fun b w3 ↦
              b && returns (uvmunmap (.user ()) [0x1FF] false) w3 fun _ _ ↦ true) = true := by
    decide +kernel
  obtain ⟨⟨ret1, r1⟩, hmap1, h1⟩ := (Option.any_eq_true _ _).mp hmem
  obtain ⟨hret1, h1⟩ := of_decide_eq_true h1
  obtain ⟨⟨ret2, r2⟩, hmap2, h2⟩ := (Option.any_eq_true _ _).mp h1
  obtain ⟨hret2, h2⟩ := of_decide_eq_true h2
  obtain ⟨r, hunmap, h3⟩ := (Option.any_eq_true _ _).mp h2
  obtain ⟨hfirst, hsecond⟩ := of_decide_eq_true h3
  obtain ⟨b1, w1, hcreate, h1⟩ := exists_of_returns hmodel
  simp only [Bool.and_eq_true, decide_eq_true_eq] at h1
  obtain ⟨⟨rfl, hfree1⟩, h1⟩ := h1
  obtain ⟨b2, w2, hput1, h2⟩ := exists_of_returns h1
  simp only [Bool.and_eq_true, decide_eq_true_eq] at h2
  obtain ⟨⟨rfl, hfree2⟩, h2⟩ := h2
  obtain ⟨b3, w3, hput2, h3⟩ := exists_of_returns h2
  obtain ⟨rfl, h3⟩ := Bool.and_eq_true_iff.mp h3
  obtain ⟨_, w, hdrop, -⟩ := exists_of_returns h3
  have hone : ∀ {ret : Int}, ret = 0 → (true = true ↔ ret = 0) := fun h ↦ ⟨fun _ ↦ h, fun _ ↦ rfl⟩
  have hrun : Together (.user ()) 0x80500000 r w :=
    .uvmunmap (.mappages (.mappages (.create (r := Sv39.start) rfl hcreate) (by decide) (by decide)
      hfree1 (by decide) hmap1 hput1 (hone hret1)) (by decide) (by decide) hfree2 (by decide) hmap2
      hput2 (hone hret2)) (fun _ _ _ _ e _ hfree ↦ Bool.noConfusion hfree) hunmap hdrop
  refine ⟨r, w, hrun, ?_, ?_⟩
  · rw [show 0x1FF = Sv39.vpn 0x1FF000 from rfl, walk_reads_memory hrun (by decide), hfirst]
    rfl
  · rw [show 0x200 = Sv39.vpn 0x200000 from rfl, walk_reads_memory hrun (by decide), hsecond]

end Xv6K210.Vm
