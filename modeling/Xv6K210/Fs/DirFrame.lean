import Xv6K210.Fs.DirImage

/-!
# What directory updates touch

Source `kernel/fs/fat32.c:615–650`. `eupdate` and `eremove` derive the number of
slots of an entry from its first byte, which is an order byte only if the entry has a
long name. With a long name they touch the slots of the entry and nothing else; without
one they go by the first character of the short name.
-/

namespace Xv6K210.Fs

open Xv6K210.Base

/-! ### Frames -/

/-- Address on the card of byte `k` along the chain `l`. -/
def dirAddr (g : Geom) (l : List Nat) (k : Nat) : Nat :=
  g.clusAddr (l.getD (k / g.bytsPerClus) 0) + k % g.bytsPerClus

/-- The byte of the card behind a byte of the directory. -/
theorem fileByte_eq (v : Volume) (l : List Nat) (k : Nat) :
    fileByte v l k = v.card (dirAddr v.geom l k) := rfl

/-- A byte of the directory after a store. -/
theorem fileByte_storeCard (v : Volume) (l : List Nat) (a k : Nat) (bs : List UInt8) :
    fileByte (storeCard v a bs) l k = store v.card a bs (dirAddr v.geom l k) := rfl

/-- The volumes differ at most in the bytes of the card at the addresses in `S`. -/
structure Framed (S : Nat → Prop) (v v' : Volume) : Prop where
  geom : v'.geom = v.geom
  fat : v'.fat = v.fat
  card : ∀ x, ¬ S x → v'.card x = v.card x

variable {v v' : Volume} {l : List Nat} {dp : Dirent}

/-- Frames compose. -/
theorem Framed.trans {S : Nat → Prop} {v'' : Volume} (h : Framed S v v') (h' : Framed S v' v'') :
    Framed S v v'' where
  geom := h'.geom.trans h.geom
  fat := h'.fat.trans h.fat
  card := by
    intro x hx
    exact (h'.card x hx).trans (h.card x hx)

/-- A frame may be enlarged. -/
theorem Framed.mono {S T : Nat → Prop} (h : Framed S v v') (hST : ∀ x, S x → T x) :
    Framed T v v' where
  geom := h.geom
  fat := h.fat
  card := by
    intro x hx
    apply h.card
    intro hs
    exact hx (hST x hs)

/-- A store is framed by the addresses whose byte it changes. -/
theorem framed_storeCard {S : Nat → Prop} (a : Nat) (bs : List UInt8)
    (h : ∀ k (hk : k < bs.length), ¬ S (a + k) → bs[k] = v.card (a + k)) :
    Framed S v (storeCard v a bs) where
  geom := rfl
  fat := rfl
  card := by
    intro x hx
    by_cases hin : a ≤ x ∧ x < a + bs.length
    · obtain ⟨k, rfl⟩ := Nat.exists_eq_add_of_le hin.1
      have hk : k < bs.length := by omega
      show store v.card a bs (a + k) = v.card (a + k)
      rw [store_apply_mem _ _ _ _ hk]
      exact h k hk hx
    · exact store_apply_of_not_mem _ _ _ _ (by omega)

/-- Chains do not depend on the bytes of the card. -/
theorem Framed.isChain {S : Nat → Prop} (h : Framed S v v') (hl : IsChain v l) : IsChain v' l := by
  constructor
  · rw [h.fat]
    exact hl.linked
  · rw [h.geom]
    exact hl.inRange

/-- A live directory stays one. -/
theorem Framed.liveDir {S : Nat → Prop} {dp : Dirent} (h : Framed S v v') (hd : LiveDir v l dp) :
    LiveDir v' l dp :=
  { hd with chain := h.isChain hd.chain }

/-- The bytes of the directory outside of the frame. -/
theorem Framed.fileByte {S : Nat → Prop} (h : Framed S v v') {k : Nat}
    (hk : ¬ S (dirAddr v.geom l k)) : fileByte v' l k = fileByte v l k := by
  rw [fileByte_eq, fileByte_eq, h.geom]
  exact h.card _ hk

/-- Different bytes of a directory have different addresses. -/
theorem dirAddr_inj (hl : IsChain v l) (hn : l.Nodup) {j k : Nat}
    (hj : j < l.length * v.geom.bytsPerClus) (hk : k < l.length * v.geom.bytsPerClus)
    (h : dirAddr v.geom l j = dirAddr v.geom l k) : j = k := by
  have hpos := v.geom.bytsPerClus_pos
  have hj' : j / v.geom.bytsPerClus < l.length := Nat.div_lt_of_lt_mul (by rwa [Nat.mul_comm])
  have hk' : k / v.geom.bytsPerClus < l.length := Nat.div_lt_of_lt_mul (by rwa [Nat.mul_comm])
  have hget : ∀ i (hi : i < l.length), l.getD i 0 = l[i] := by
    intro i hi
    rw [List.getD_eq_getElem?_getD, List.getElem?_eq_getElem hi]
    rfl
  rw [dirAddr, dirAddr, hget _ hj', hget _ hk'] at h
  have hjm := Nat.mod_lt j hpos
  have hkm := Nat.mod_lt k hpos
  by_cases hc : l[j / v.geom.bytsPerClus] = l[k / v.geom.bytsPerClus]
  · have hdiv := (List.Nodup.getElem_inj_iff hn).mp hc
    rw [hc] at h
    have hdj := Nat.div_add_mod j v.geom.bytsPerClus
    have hdk := Nat.div_add_mod k v.geom.bytsPerClus
    rw [hdiv] at hdj
    omega
  · have := Geom.clusAddr_disjoint (hl.inRange _ (List.getElem_mem hj'))
      (hl.inRange _ (List.getElem_mem hk')) hc
    omega

/-- Addresses inside a slot. -/
theorem dirAddr_slot (g : Geom) (l : List Nat) {off k : Nat} (ha : off % 32 = 0) (hk : k < 32) :
    dirAddr g l (off + k) = dirAddr g l off + k ∧ dirAddr g l off % 32 = 0 := by
  obtain ⟨hm, hm32⟩ := slot_in_cluster g ha
  obtain ⟨hd, hr⟩ := sameCluster g.bytsPerClus off k (by omega)
  constructor
  · rw [dirAddr, dirAddr, hd, hr, Nat.add_assoc]
  · rw [dirAddr, Geom.clusAddr, bsize]
    omega

/-- Moving the cursor to a cluster of the directory. -/
theorem LiveDir.seek (h : LiveDir v l dp) {i c : Nat} (hc : l[i]? = some c) :
    LiveDir v l { dp with curClus := c, clusCnt := i } := h.move rfl (h.onChain.move hc)

/-! ### One update -/

/-- Address of the cluster under the cursor. -/
theorem dirAddr_cursor {off c : Nat} (hc : l[off / v.geom.bytsPerClus]? = some c) :
    v.geom.clusAddr c + off % v.geom.bytsPerClus = dirAddr v.geom l off := by
  rw [dirAddr, List.getD_eq_getElem?_getD, hc]
  rfl

private theorem cluster_of (off : Nat) (h : off < l.length * v.geom.bytsPerClus) :
    ∃ c, l[off / v.geom.bytsPerClus]? = some c :=
  ⟨_, List.getElem?_eq_getElem (Nat.div_lt_of_lt_mul (by rwa [Nat.mul_comm]))⟩

/-- The slot count that `eupdate` and `eremove` derive for an entry at `off`. -/
def derivedCount (v : Volume) (l : List Nat) (off : Nat) : Nat := slotCount (fileByte v l off)

private theorem read_count (hd : LiveDir v l dp) {off : Nat} (ha : off % 32 = 0)
    (hin : off < l.length * v.geom.bytsPerClus) : ∃ c, l[off / v.geom.bytsPerClus]? = some c ∧
      relocClus v dp off false =
        .ok (v, { dp with curClus := c, clusCnt := off / v.geom.bytsPerClus },
          (off % v.geom.bytsPerClus : Nat)) ∧
      readClus v c (off % v.geom.bytsPerClus : Nat) 1 = .ok [fileByte v l off] := by
  obtain ⟨c, hc⟩ := cluster_of _ hin
  have hm := (slot_in_cluster v.geom ha).1
  refine ⟨c, hc, relocClus_inside hd.chain hd.onChain hd.firstClus false hc, ?_⟩
  exact readClus_inside hd.chain hc (by decide) (by omega)

/-- An updated slot has its length. -/
theorem length_sneUpdate {de : List UInt8} (h : de.length = 32) (clus size : Nat) :
    (sneUpdate de clus size).length = 32 := by
  simp [sneUpdate, h]

/-- `eupdate` when the slot it derives is inside the directory. -/
theorem eupdate_inside {dp e : Dirent} (hd : LiveDir v l dp) (hv : e.valid = 1)
    (hdirty : e.dirty = true) (ha : e.off % 32 = 0)
    (hin : e.off < l.length * v.geom.bytsPerClus)
    (hs : slotOff e.off (derivedCount v l e.off) < l.length * v.geom.bytsPerClus) :
    ∃ dp', eupdate v dp e = .ok (storeCard v
        (dirAddr v.geom l (slotOff e.off (derivedCount v l e.off)))
        (sneUpdate (dirSlot v l (slotOff e.off (derivedCount v l e.off))) e.firstClus e.fileSize),
        dp', { e with dirty := false }) ∧ LiveDir v l dp' := by
  obtain ⟨c, hc, hreloc, hread⟩ := read_count hd ha hin
  have hd1 := hd.seek hc
  have hsa : slotOff e.off (derivedCount v l e.off) % 32 = 0 := slotOff_mod ha _
  obtain ⟨c2, hc2⟩ := cluster_of _ hs
  have hm := (slot_in_cluster v.geom hsa).1
  have hreloc2 := relocClus_inside hd1.chain hd1.onChain hd1.firstClus false hc2
  have hread2 : readClus v c2
      ((slotOff e.off (derivedCount v l e.off) % v.geom.bytsPerClus : Nat) : Int) 32 =
      .ok (dirSlot v l (slotOff e.off (derivedCount v l e.off))) :=
    readClus_inside hd.chain hc2 (by decide) hm
  have hlen := length_sneUpdate (length_dirSlot v l (slotOff e.off (derivedCount v l e.off)))
    e.firstClus e.fileSize
  have hwrite := writeClus_inside (slotOff e.off (derivedCount v l e.off))
    (sneUpdate (dirSlot v l (slotOff e.off (derivedCount v l e.off))) e.firstClus e.fileSize)
    (hd.chain.inRange c2 (List.mem_of_getElem? hc2)) (by omega) (by omega)
  rw [dirAddr_cursor hc2] at hwrite
  refine ⟨_, ?_, hd1.seek hc2⟩
  have hoff : (e.off + slotCount (fileByte v l e.off) * 32) % 2 ^ 32 =
      slotOff e.off (derivedCount v l e.off) := by
    rw [slotOff, derivedCount, Nat.mul_comm]
  rw [eupdate, if_neg (by simp [hv, hdirty]), hreloc]
  simp only [bind, Except.bind, hread, List.getD_cons_zero, hoff]
  rw [hreloc2]
  simp only [hread2, hwrite]
  rfl

/-- Byte of the card that `eupdate` overwrites with the low byte of the first cluster when the
slot it derives is behind the end of the directory. -/
def wildAddr (g : Geom) (cluster : Nat) : Nat := bsize * ((g.wildSec cluster + 1) % 2 ^ 32) + 25

private theorem sneUpdate_lo {de : List UInt8} (h : de.length = 32) (clus size : Nat) :
    (sneUpdate de clus size).getD 26 0 = UInt8.ofNat clus := by
  simp only [sneUpdate, List.append_assoc, List.getD_eq_getElem?_getD]
  rw [List.getElem?_append_right (by simp [h]), List.getElem?_append_right (by simp [h]),
    List.getElem?_append_right (by simp [h])]
  have hmod : UInt8.ofNat (clus % 256) = UInt8.ofNat clus := UInt8.ofNat_mod_size
  simp [h, leBytes, hmod]

private theorem toU32_neg_one : toU32 (-1) = 2 ^ 32 - 1 := by decide

/-- `eupdate` when the slot it derives is behind the end of the directory: `reloc_clus` returns
`-1`, and the update goes to a place that no file owns. -/
theorem eupdate_past {dp e : Dirent} (hd : LiveDir v l dp) (hv : e.valid = 1)
    (hdirty : e.dirty = true) (ha : e.off % 32 = 0)
    (hin : e.off < l.length * v.geom.bytsPerClus)
    (hs : l.length * v.geom.bytsPerClus ≤ slotOff e.off (derivedCount v l e.off)) :
    ∃ v' dp' e', eupdate v dp e = .ok (v', dp', e') ∧
      v'.card (wildAddr v.geom dp.firstClus) = UInt8.ofNat e.firstClus := by
  obtain ⟨c, hc, hreloc, hread⟩ := read_count hd ha hin
  have hd1 := hd.seek hc
  have hreloc2 := relocClus_past hd1.chain hd1.onChain hd1.firstClus
    ((Nat.le_div_iff_mul_le v.geom.bytsPerClus_pos).mpr hs)
  have hread2 : ∃ de, readClus v dp.firstClus (-1) 32 = .ok de ∧ de.length = 32 := by
    rw [readClus, toU32_neg_one, rwClus_wild_read]
    exact ⟨_, rfl, by simp⟩
  obtain ⟨de, hread2, hde⟩ := hread2
  have hlen := length_sneUpdate hde e.firstClus e.fileSize
  obtain ⟨v', hwild, hcard⟩ := rwClus_wild_write v dp.firstClus 0
    fun i ↦ (sneUpdate de e.firstClus e.fileSize).getD i 0
  have hwrite : writeClus v dp.firstClus (-1) (sneUpdate de e.firstClus e.fileSize) = .ok v' := by
    rw [writeClus, toU32_neg_one, hlen, hwild]
  refine ⟨v', { dp with curClus := dp.firstClus, clusCnt := 0 }, { e with dirty := false }, ?_, ?_⟩
  · have hoff : (e.off + slotCount (fileByte v l e.off) * 32) % 2 ^ 32 =
        slotOff e.off (derivedCount v l e.off) := by
      rw [slotOff, derivedCount, Nat.mul_comm]
    rw [eupdate, if_neg (by simp [hv, hdirty]), hreloc]
    simp only [bind, Except.bind, hread, List.getD_cons_zero, hoff]
    rw [hreloc2]
    simp only [hread2, hwrite]
    rfl
  · rw [hcard, wildAddr, store_apply_mem _ _ _ 25 (by simp)]
    rw [← sneUpdate_lo hde e.firstClus e.fileSize]
    simp [load]

/-! ### One removal -/

/-- The first bytes of `n` slots from `off` on. -/
def markAddrs (g : Geom) (l : List Nat) (off n : Nat) (x : Nat) : Prop :=
  ∃ j < n, x = dirAddr g l (off + 32 * j)

private theorem relocClus_some (hd : LiveDir v l dp) (off : Nat) :
    ∃ dp' off2, relocClus v dp off false = .ok (v, dp', off2) ∧ LiveDir v l dp' := by
  by_cases hin : off < l.length * v.geom.bytsPerClus
  · obtain ⟨c, hc⟩ := cluster_of _ hin
    exact ⟨_, _, relocClus_inside hd.chain hd.onChain hd.firstClus false hc,
      hd.move rfl (hd.onChain.move hc)⟩
  · exact ⟨_, _, relocClus_past hd.chain hd.onChain hd.firstClus
      ((Nat.le_div_iff_mul_le v.geom.bytsPerClus_pos).mpr (by omega)),
      hd.move rfl (hd.onChain.move (hd.onChain.getElem?_zero hd.firstClus))⟩

-- Invariant of the loop: the cursor stands on the cluster of the next slot. Behind the last
-- slot it may be rewound, when that slot ends the chain.
private theorem eremoveLoop_marks : ∀ (k : Nat) {v : Volume} {dp : Dirent} (off : Nat),
    LiveDir v l dp → off % 32 = 0 → off + 32 * (k + 1) ≤ 2 ^ 32 →
    off + 32 * (k + 1) ≤ l.length * v.geom.bytsPerClus →
    l[off / v.geom.bytsPerClus]? = some dp.curClus →
    ∃ v' dp', eremoveLoop (k + 1) v dp off (off % v.geom.bytsPerClus : Nat) = .ok (v', dp') ∧
      Framed (markAddrs v.geom l off (k + 1)) v v' ∧ LiveDir v' l dp' ∧
      ∀ j < k + 1, fileByte v' l (off + 32 * j) = emptyEntry
  | k, v, dp, off, hd, ha, hb, hin, hcur => by
    have hm := (slot_in_cluster v.geom ha).1
    have hwrite := writeClus_inside (v := v) off [emptyEntry]
      (hd.chain.inRange _ (List.mem_of_getElem? hcur)) (by simp) (by simp; omega)
    have hstore := fun x (hx : x < l.length * v.geom.bytsPerClus) ↦
      fileByte_store hd.chain hd.nodup [emptyEntry] hcur (by simp; omega) hx
    have hfr : Framed (markAddrs v.geom l off 1) v
        (storeCard v (v.geom.clusAddr dp.curClus + off % v.geom.bytsPerClus) [emptyEntry]) := by
      rw [dirAddr_cursor hcur]
      apply framed_storeCard
      intro j hj hS
      have hj0 : j = 0 := by simpa using hj
      exact absurd ⟨0, by decide, by rw [hj0]; rfl⟩ hS
    generalize storeCard v (v.geom.clusAddr dp.curClus + off % v.geom.bytsPerClus) [emptyEntry] = v1
      at hwrite hstore hfr
    have hd1 := hfr.liveDir hd
    have hfirst : fileByte v1 l off = emptyEntry := by
      rw [hstore off (by omega), dif_pos (by simp)]
      simp
    cases k with
    | zero =>
      obtain ⟨dp2, off2, hreloc, hd2⟩ := relocClus_some hd1 ((off + 32) % 2 ^ 32)
      refine ⟨v1, dp2, ?_, hfr, hd2, ?_⟩
      · rw [eremoveLoop, hwrite]
        simp only [bind, Except.bind]
        rw [hreloc]
        rfl
      · intro j hj
        have hj0 : j = 0 := by omega
        rw [hj0]
        exact hfirst
    | succ k =>
      have hnext : (off + 32) % 2 ^ 32 = off + 32 := by omega
      obtain ⟨c, hc⟩ := cluster_of (v := v1) (l := l) (off + 32) (by rw [hfr.geom]; omega)
      have hreloc := relocClus_inside hd1.chain hd1.onChain hd1.firstClus false hc
      have hd2 := hd1.seek hc
      obtain ⟨v', dp', hloop, hfr', hd', hmarks⟩ := eremoveLoop_marks k (off + 32) hd2
        (by omega) (by omega) (by rw [hfr.geom]; omega) hc
      have hall : Framed (markAddrs v.geom l off (k + 1 + 1)) v v' := by
        rw [hfr.geom] at hfr'
        have hfst : Framed (markAddrs v.geom l off (k + 1 + 1)) v v1 := by
          apply hfr.mono
          rintro x ⟨j, hj, rfl⟩
          exact ⟨j, by omega, rfl⟩
        apply hfst.trans
        apply hfr'.mono
        rintro x ⟨j, hj, rfl⟩
        exact ⟨j + 1, by omega, by rw [show off + 32 * (j + 1) = off + 32 + 32 * j by omega]⟩
      refine ⟨v', dp', ?_, hall, hd', ?_⟩
      · rw [eremoveLoop, hwrite]
        simp only [bind, Except.bind, hnext]
        rw [hreloc]
        exact hloop
      · intro j hj
        cases j with
        | zero =>
          -- the later marks leave the first one
          rw [hfr'.fileByte, Nat.mul_zero, Nat.add_zero]
          · exact hfirst
          · rintro ⟨j, hj, heq⟩
            have := dirAddr_inj hd1.chain hd1.nodup (by rw [hfr.geom]; omega)
              (by rw [hfr.geom]; omega) heq
            omega
        | succ j =>
          rw [show off + 32 * (j + 1) = off + 32 + 32 * j by omega]
          exact hmarks j (by omega)
termination_by k => k

/-- `eremove` when the slots it derives are inside the directory. -/
theorem eremove_inside {dp e : Dirent} (hd : LiveDir v l dp) (hv : e.valid = 1)
    (ha : e.off % 32 = 0) (hb : e.off + 32 * (derivedCount v l e.off + 1) ≤ 2 ^ 32)
    (hin : e.off + 32 * (derivedCount v l e.off + 1) ≤ l.length * v.geom.bytsPerClus) :
    ∃ v' dp', eremove v dp e = .ok (v', dp', { e with valid := -1 }) ∧
      Framed (markAddrs v.geom l e.off (derivedCount v l e.off + 1)) v v' ∧ LiveDir v' l dp' ∧
      ∀ j < derivedCount v l e.off + 1, fileByte v' l (e.off + 32 * j) = emptyEntry := by
  obtain ⟨c, hc, hreloc, hread⟩ := read_count hd ha (by omega)
  have hd1 := hd.seek hc
  obtain ⟨v', dp', hloop, hfr, hd', hmarks⟩ := eremoveLoop_marks (derivedCount v l e.off) e.off hd1
    ha hb hin hc
  refine ⟨v', dp', ?_, hfr, hd', hmarks⟩
  rw [eremove, if_neg (by simp [hv]), hreloc]
  simp only [bind, Except.bind, hread, List.getD_cons_zero]
  rw [derivedCount] at hloop
  rw [hloop]
  rfl

/-! ### The image afterwards -/

private theorem sneUpdate_take (de : List UInt8) (h : de.length = 32) (clus size : Nat) :
    (sneUpdate de clus size).take 20 = de.take 20 := by
  simp only [sneUpdate, List.append_assoc]
  exact List.take_left' (by simp [h])

private theorem sneUpdate_getD {de : List UInt8} (h : de.length = 32) (clus size : Nat) {k : Nat}
    (hk : k < 20 ∨ 22 ≤ k ∧ k < 26) : (sneUpdate de clus size).getD k 0 = de.getD k 0 := by
  simp only [sneUpdate, List.append_assoc, List.getD_eq_getElem?_getD]
  rcases hk with hk | hk
  · rw [List.getElem?_append_left (by simp [h]; omega), List.getElem?_take_of_lt hk]
  · rw [List.getElem?_append_right (by simp [h]; omega),
      List.getElem?_append_right (by simp [h]; omega),
      List.getElem?_append_left (by simp [h]; omega), List.getElem?_take_of_lt (by simp [h]; omega),
      List.getElem?_drop]
    simp only [List.length_take, h, length_leBytes]
    congr 2
    omega

private theorem sneUpdate_sizes {de : List UInt8} (h : de.length = 32) {clus size : Nat}
    (hc : clus < 2 ^ 32) (hs : size < 2 ^ 32) :
    sneFirstClus (sneUpdate de clus size) = clus ∧ sneFileSize (sneUpdate de clus size) = size := by
  have hhi : ((sneUpdate de clus size).drop 20).take 2 = leBytes 2 (clus / 2 ^ 16) := by
    simp only [sneUpdate, List.append_assoc]
    rw [List.drop_left' (by simp [h])]
    exact List.take_left' (by simp)
  have hlo : ((sneUpdate de clus size).drop 26).take 2 = leBytes 2 clus := by
    simp only [sneUpdate]
    rw [List.append_assoc, List.drop_left' (by simp [h])]
    exact List.take_left' (by simp)
  have hsz : ((sneUpdate de clus size).drop 28).take 4 = leBytes 4 size := by
    simp only [sneUpdate]
    rw [List.drop_left' (by simp [h])]
    exact List.take_of_length_le (by simp)
  constructor
  · rw [sneFirstClus, hhi, hlo, leNat_leBytes, leNat_leBytes]
    omega
  · rw [sneFileSize, hsz, leNat_leBytes]
    omega

/-- An updated entry has the new first cluster and size, and the same name and attribute. -/
theorem decodeEntry_sneUpdate (ep : Dirent) (longs : List (List UInt8)) {short : List UInt8}
    (h : short.length = 32) {clus size : Nat} (hc : clus < 2 ^ 32) (hs : size < 2 ^ 32) :
    decodeEntry ep longs (sneUpdate short clus size) =
      { decodeEntry ep longs short with
        firstClus := clus
        fileSize := size
        curClus := clus } := by
  obtain ⟨h1, h2⟩ := sneUpdate_sizes h hc hs
  have hattr : slotAttr (sneUpdate short clus size) = slotAttr short :=
    sneUpdate_getD h clus size (.inl (by decide))
  have hname : shortNameBytes (sneUpdate short clus size) = shortNameBytes short := by
    have htake : (sneUpdate short clus size).take 11 = short.take 11 := by
      have := congrArg (List.take 11) (sneUpdate_take short h clus size)
      simpa [List.take_take] using this
    simp only [shortNameBytes, htake]
  simp only [decodeEntry, fillEntry, h1, h2, hattr, readShortName, hname]

/-- A well-formed entry stays one when it is updated. -/
theorem wf_sneUpdate {longs : List (List UInt8)} {short : List UInt8}
    (h : (DirItem.live longs short).Wf) (clus size : Nat) :
    (DirItem.live longs (sneUpdate short clus size)).Wf := by
  obtain ⟨hrun, hcnt, hlen, h0, hE, hattr⟩ := h
  refine ⟨hrun, hcnt, length_sneUpdate hlen clus size, ?_, ?_, ?_⟩
  · rw [sneUpdate_getD hlen clus size (.inl (by decide))]
    exact h0
  · rw [sneUpdate_getD hlen clus size (.inl (by decide))]
    exact hE
  · rw [slotAttr, sneUpdate_getD hlen clus size (.inl (by decide))]
    exact hattr

/-- Slots by their number, for a directory that ends before the offsets wrap. -/
theorem slotsAt_iff {p : Nat} {des : List (List UInt8)} (hb : 32 * (p + des.length) < 2 ^ 32) :
    SlotsAt v l (32 * p) des ↔ ∀ j (h : j < des.length),
      32 * (p + j) < l.length * v.geom.bytsPerClus ∧ dirSlot v l (32 * (p + j)) = des[j] := by
  have hoff : ∀ j < des.length, slotOff (32 * p) j = 32 * (p + j) := by
    intro j hj
    rw [slotOff]
    omega
  constructor
  · intro h j hj
    have := h j hj
    rwa [hoff j hj] at this
  · intro h j hj
    rw [hoff j hj]
    exact h j hj

private theorem dirSlot_congr {off : Nat}
    (h : ∀ k < 32, fileByte v' l (off + k) = fileByte v l (off + k)) :
    dirSlot v' l off = dirSlot v l off := by
  apply List.map_congr_left
  intro k hk
  exact h k (List.mem_range.mp hk)

/-- Replacing some items of an image, when nothing else in the directory changed. -/
theorem ImageFrom.replace {pre mid mid' post : List DirItem}
    (h : ImageFrom v l 0 (pre ++ mid ++ post)) (hg : v'.geom = v.geom)
    (hwf : ∀ it ∈ mid', it.Wf) (hlen : (slotsOf mid').length = (slotsOf mid).length)
    (hout : ∀ k < l.length * v.geom.bytsPerClus, k < 32 * (slotsOf pre).length ∨
      32 * ((slotsOf pre).length + (slotsOf mid).length) ≤ k → fileByte v' l k = fileByte v l k)
    (hmid : SlotsAt v' l (32 * (slotsOf pre).length) (slotsOf mid')) :
    ImageFrom v' l 0 (pre ++ mid' ++ post) := by
  have hb := h.bound
  have he := h.ends
  have hs := h.slots
  simp only [slotsOf_append, List.length_append, Nat.zero_add] at hb he
  rw [slotsAt_iff (by simp only [slotsOf_append, List.length_append]; omega)] at hs
  rw [slotsAt_iff (by omega)] at hmid
  constructor
  · intro it hit
    rw [List.mem_append, List.mem_append] at hit
    rcases hit with (hit | hit) | hit
    · exact h.wf it (by simp [hit])
    · exact hwf it hit
    · exact h.wf it (by simp [hit])
  · rw [slotsAt_iff (by simp only [slotsOf_append, List.length_append]; omega), hg]
    intro j hj
    simp only [slotsOf_append, List.length_append, hlen] at hj
    have hold := hs j (by simp only [slotsOf_append, List.length_append]; omega)
    refine ⟨hold.1, ?_⟩
    have hend := slot_end_le v.geom (32 * (0 + j)) (by omega) hold.1
    simp only [slotsOf_append, Nat.zero_add] at hold hend ⊢
    -- before, in, and behind the replaced items
    by_cases h1 : j < (slotsOf pre).length
    · rw [dirSlot_congr fun k hk ↦ hout _ (by omega) (by omega), hold.2,
        List.getElem_append_left (by simp; omega), List.getElem_append_left h1,
        List.getElem_append_left (by simp; omega), List.getElem_append_left h1]
    · by_cases h2 : j < (slotsOf pre).length + (slotsOf mid).length
      · have := (hmid (j - (slotsOf pre).length) (by omega)).2
        rw [show (slotsOf pre).length + (j - (slotsOf pre).length) = j by omega] at this
        rw [this, List.getElem_append_left (by simp; omega), List.getElem_append_right (by omega)]
      · rw [dirSlot_congr fun k hk ↦ hout _ (by omega) (by omega), hold.2,
          List.getElem_append_right (by simp; omega), List.getElem_append_right (by simp; omega)]
        simp only [List.length_append, hlen]
  · simp only [slotsOf_append, List.length_append, hlen, Nat.zero_add]
    by_cases hlast : l.length * v.geom.bytsPerClus ≤ 32 * ((slotsOf pre).length +
        (slotsOf mid).length + (slotsOf post).length)
    · left
      rwa [hg]
    · right
      rw [hout _ (by omega) (by omega)]
      exact he.resolve_left hlast
  · simp only [slotsOf_append, List.length_append, hlen, Nat.zero_add]
    exact hb

/-- Every item takes a slot. -/
theorem length_le_slotsOf : ∀ items : List DirItem, items.length ≤ (slotsOf items).length
  | [] => Nat.le_refl _
  | it :: items => by
    have ih := length_le_slotsOf items
    have h1 : 1 ≤ it.slots.length := by
      cases it with
      | deleted de => exact Nat.le_refl _
      | live longs short => simp [DirItem.slots]
    rw [show slotsOf (it :: items) = it.slots ++ slotsOf items from rfl, List.length_append,
      List.length_cons]
    omega

/-- The entries of two parts. -/
theorem entriesFrom_append : ∀ (xs ys : List DirItem) (p : Nat),
    entriesFrom p (xs ++ ys) = entriesFrom p xs ++ entriesFrom (p + (slotsOf xs).length) ys
  | [], ys, p => rfl
  | .deleted de :: xs, ys, p => by
    have ih := entriesFrom_append xs ys (p + 1)
    have hl : (slotsOf (.deleted de :: xs)).length = 1 + (slotsOf xs).length := by
      simp [slotsOf, DirItem.slots]
      omega
    rw [List.cons_append, entriesFrom, entriesFrom, ih, hl, ← Nat.add_assoc]
  | .live longs short :: xs, ys, p => by
    have ih := entriesFrom_append xs ys (p + longs.length + 1)
    have hl : (slotsOf (.live longs short :: xs)).length =
        longs.length + 1 + (slotsOf xs).length := by
      simp [slotsOf, DirItem.slots]
      omega
    rw [List.cons_append, entriesFrom, entriesFrom, ih, hl, ← Nat.add_assoc, ← Nat.add_assoc]
    rfl

/-- An entry of a list of items stands in one of them. -/
theorem entriesFrom_split : ∀ (items : List DirItem) (p : Nat)
    {es1 es2 : List (Nat × Nat × Dirent)} {off cnt : Nat} {d : Dirent},
    entriesFrom p items = es1 ++ (off, cnt, d) :: es2 →
    ∃ pre longs short post, items = pre ++ DirItem.live longs short :: post ∧
      es1 = entriesFrom p pre ∧ off = 32 * (p + (slotsOf pre).length) ∧
      cnt = longs.length + 1 ∧ d = decodeEntry {} longs short ∧
      es2 = entriesFrom (p + (slotsOf pre).length + longs.length + 1) post
  | [], p, es1, es2, off, cnt, d, h => by simp [entriesFrom] at h
  | .deleted de :: items, p, es1, es2, off, cnt, d, h => by
    rw [entriesFrom] at h
    obtain ⟨pre, longs, short, post, rfl, h1, h2, h3, h4, h5⟩ := entriesFrom_split items (p + 1) h
    have hl : (slotsOf (.deleted de :: pre)).length = 1 + (slotsOf pre).length := by
      simp [slotsOf, DirItem.slots]
      omega
    refine ⟨.deleted de :: pre, longs, short, post, rfl, h1, ?_, h3, h4, ?_⟩
    · rw [h2, hl, Nat.add_assoc]
    · rw [h5, hl, ← Nat.add_assoc p 1]
  | .live longs short :: items, p, es1, es2, off, cnt, d, h => by
    rw [entriesFrom] at h
    cases es1 with
    | nil =>
      rw [List.nil_append, List.cons.injEq, Prod.mk.injEq, Prod.mk.injEq] at h
      obtain ⟨⟨h1, h2, h3⟩, h4⟩ := h
      exact ⟨[], longs, short, items, rfl, rfl, h1.symm, h2.symm, h3.symm, h4.symm⟩
    | cons x es1 =>
      rw [List.cons_append, List.cons.injEq] at h
      obtain ⟨hx, h⟩ := h
      obtain ⟨pre, longs', short', post, rfl, h1, h2, h3, h4, h5⟩ := entriesFrom_split items _ h
      have hl : (slotsOf (.live longs short :: pre)).length =
          longs.length + 1 + (slotsOf pre).length := by
        simp [slotsOf, DirItem.slots]
        omega
      refine ⟨.live longs short :: pre, longs', short', post, rfl, ?_, ?_, h3, h4, ?_⟩
      · rw [entriesFrom, ← h1, hx]
      · rw [h2, hl, ← Nat.add_assoc, ← Nat.add_assoc]
      · rw [h5, hl, ← Nat.add_assoc, ← Nat.add_assoc]

/-- The walk over a whole directory. -/
def listing (v : Volume) (dp : Dirent) : Except Panic (List (Nat × Nat × Dirent)) :=
  listDir v (enextFuel v) dp 0

/-- The walk over the image of a live directory. -/
theorem listing_image (hd : LiveDir v l dp) {items : List DirItem} (h : ImageFrom v l 0 items) :
    listing v dp = .ok (entriesFrom 0 items) := by
  have hin := h.inside (Nat.zero_le _)
  rw [Nat.zero_add] at hin
  have hfuel := enextFuel_image hd.chain hd.nodup hin
  have hle := length_le_slotsOf items
  exact listDir_image (enextFuel v) (by omega) hd h (Nat.zero_le _)

/-! ### Own slots only -/

/-- Addresses of the first-cluster and size fields of the slot at `s`. -/
def fieldAddrs (g : Geom) (l : List Nat) (s x : Nat) : Prop :=
  ∃ k, (20 ≤ k ∧ k < 22 ∨ 26 ≤ k ∧ k < 32) ∧ x = dirAddr g l (s + k)

/-- Updates and the removal of the entry `e`, listed as `d` with `cnt` slots between `es1` and
`es2`, change its own slots and nothing else. -/
structure OwnSlotsOnly (v : Volume) (l : List Nat) (dp e : Dirent) (cnt : Nat) (d : Dirent)
    (es1 es2 : List (Nat × Nat × Dirent)) : Prop where
  update : ∀ clus size, clus < 2 ^ 32 → size < 2 ^ 32 → ∃ v' dp' e',
    eupdate v dp { e with firstClus := clus, fileSize := size, dirty := true } =
      .ok (v', dp', e') ∧
    Framed (fieldAddrs v.geom l (e.off + 32 * (cnt - 1))) v v' ∧
    listing v' dp' = .ok (es1 ++
      (e.off, cnt, { d with firstClus := clus, fileSize := size, curClus := clus }) :: es2)
  remove : ∃ v' dp' e', eremove v dp e = .ok (v', dp', e') ∧
    Framed (markAddrs v.geom l e.off cnt) v v' ∧
    (∀ j < cnt, fileByte v' l (e.off + 32 * j) = emptyEntry) ∧
    listing v' dp' = .ok (es1 ++ es2)

private theorem slotCount_zero_iff (b : UInt8) (h : b ≠ endOfEntry) :
    slotCount b = 0 ↔ b = 0x40 := by
  have hall : ∀ n < 256, UInt8.ofNat n ≠ endOfEntry →
      (slotCount (UInt8.ofNat n) = 0 ↔ UInt8.ofNat n = 0x40) := by
    decide +kernel
  have hb := hall b.toNat b.toNat_lt
  rw [UInt8.ofNat_toNat] at hb
  exact hb h

/-- The derived slot count is the real one for an entry with a long name, and for a short
name that starts with `@`. -/
theorem derivedCount_eq_iff {pre post : List DirItem} {longs : List (List UInt8)}
    {short : List UInt8} (himg : ImageFrom v l 0 (pre ++ .live longs short :: post)) :
    derivedCount v l (32 * (slotsOf pre).length) = longs.length ↔
      longs.length + 1 ≠ 1 ∨ fileByte v l (32 * (slotsOf pre).length) = 0x40 := by
  obtain ⟨hrun, hcnt, hlen, h0, hE, hattr⟩ := himg.wf (.live longs short) (by simp)
  have hb := himg.bound
  have hs := himg.slots
  rw [slotsAt_iff hb] at hs
  have hj : (slotsOf pre).length < (slotsOf (pre ++ .live longs short :: post)).length := by
    simp only [slotsOf, DirItem.slots, List.flatMap_append, List.flatMap_cons, List.length_append,
      List.length_cons, List.length_nil]
    omega
  have hslot := (hs _ hj).2
  rw [Nat.zero_add] at hslot
  have hget : (slotsOf (pre ++ .live longs short :: post))[(slotsOf pre).length] =
      (longs ++ [short]).get ⟨0, by simp⟩ := by
    simp only [slotsOf_append]
    rw [List.getElem_append_right (Nat.le_refl _)]
    simp only [Nat.sub_self, slotsOf, List.flatMap_cons, DirItem.slots, List.get_eq_getElem]
    rw [List.getElem_append_left]
  rw [hget] at hslot
  rw [derivedCount, ← dirSlot_first, hslot]
  cases longs with
  | nil =>
    show slotCount (short.getD 0 0) = 0 ↔ _
    rw [slotCount_zero_iff _ h0]
    simp
  | cons de des =>
    obtain ⟨_, _, horder, _⟩ := hrun
    have hspec := orderByte_spec (de :: des).length (des.length + 1) (by omega)
      (by simpa using hcnt)
    show slotCount (de.getD 0 0) = des.length + 1 ↔ _
    rw [horder, hspec.2.2.1]
    simp

/-- Where the slots of an entry of the image stand. -/
theorem ImageFrom.entry {pre post : List DirItem} {longs : List (List UInt8)} {short : List UInt8}
    (h : ImageFrom v l 0 (pre ++ [DirItem.live longs short] ++ post)) :
    32 * ((slotsOf pre).length + (longs.length + 1)) < 2 ^ 32 ∧
      32 * ((slotsOf pre).length + (longs.length + 1)) ≤ l.length * v.geom.bytsPerClus ∧
      SlotsAt v l (32 * (slotsOf pre).length) (longs ++ [short]) := by
  have hmid : slotsOf [.live longs short] = longs ++ [short] := by simp [slotsOf, DirItem.slots]
  have htot : (slotsOf (pre ++ [DirItem.live longs short] ++ post)).length =
      (slotsOf pre).length + (longs.length + 1) + (slotsOf post).length := by
    simp only [slotsOf_append, List.length_append, hmid, List.length_singleton]
  have hb := h.bound
  have hin := h.inside (Nat.zero_le _)
  have hs := h.slots
  rw [slotsAt_iff hb] at hs
  rw [htot] at hb hin
  refine ⟨by omega, by omega, ?_⟩
  rw [slotsAt_iff (by simp only [List.length_append, List.length_singleton]; omega)]
  intro j hj
  rw [List.length_append, List.length_singleton] at hj
  obtain ⟨h1, h2⟩ := hs ((slotsOf pre).length + j) (by rw [htot]; omega)
  rw [Nat.zero_add] at h1 h2
  refine ⟨h1, ?_⟩
  rw [h2]
  simp only [slotsOf_append, hmid]
  rw [List.getElem_append_left (by simp; omega), List.getElem_append_right (by omega)]
  simp only [Nat.add_sub_cancel_left]

-- The store of the new fields, seen by the card and by the directory.
private theorem store_fields {s : Nat} {short : List UInt8} (ha : s % 32 = 0)
    (hshort : dirSlot v l s = short) (clus size : Nat) :
    Framed (fieldAddrs v.geom l s) v
      (storeCard v (dirAddr v.geom l s) (sneUpdate short clus size)) ∧
      dirSlot (storeCard v (dirAddr v.geom l s) (sneUpdate short clus size)) l s =
        sneUpdate short clus size := by
  have hlen : short.length = 32 := by rw [← hshort, length_dirSlot]
  have hslen := length_sneUpdate hlen clus size
  constructor
  · apply framed_storeCard
    intro k hk hnot
    have hk32 : k < 32 := by omega
    have hcase : k < 20 ∨ 22 ≤ k ∧ k < 26 := by
      by_contra hno
      exact hnot ⟨k, by omega, ((dirAddr_slot v.geom l ha hk32).1).symm⟩
    have hbyte : short.getD k 0 = v.card (dirAddr v.geom l s + k) := by
      rw [← hshort, List.getD_eq_getElem?_getD, List.getElem?_eq_getElem (by simpa using hk32),
        getElem_dirSlot, ← (dirAddr_slot v.geom l ha hk32).1, ← fileByte_eq, Option.getD_some]
    have hget := sneUpdate_getD hlen clus size hcase
    rwa [List.getD_eq_getElem?_getD, List.getElem?_eq_getElem hk, hbyte, Option.getD_some] at hget
  · apply List.ext_getElem
    · rw [length_dirSlot, hslen]
    · intro k hk1 hk2
      rw [length_dirSlot] at hk1
      rw [getElem_dirSlot, fileByte_storeCard, (dirAddr_slot v.geom l ha hk1).1,
        store_apply_mem _ _ _ _ hk2]

private theorem update_own {dp e : Dirent} {pre post : List DirItem} {longs : List (List UInt8)}
    {short : List UInt8} (hd : LiveDir v l dp) (hv : e.valid = 1)
    (himg : ImageFrom v l 0 (pre ++ [DirItem.live longs short] ++ post))
    (hoff : e.off = 32 * (slotsOf pre).length) (hcount : derivedCount v l e.off = longs.length)
    (clus size : Nat) : ∃ v' dp' e',
    eupdate v dp { e with firstClus := clus, fileSize := size, dirty := true } =
      .ok (v', dp', e') ∧
    Framed (fieldAddrs v.geom l (e.off + 32 * longs.length)) v v' ∧
    listing v' dp' =
      .ok (entriesFrom 0 (pre ++ [DirItem.live longs (sneUpdate short clus size)] ++ post)) := by
  obtain ⟨hb, hin, hslots⟩ := himg.entry
  have hso : slotOff e.off longs.length = e.off + 32 * longs.length := by
    rw [slotOff]
    omega
  have hlens : (slotsOf [.live longs (sneUpdate short clus size)]).length = longs.length + 1 ∧
      (slotsOf [.live longs short]).length = longs.length + 1 := by
    constructor <;> simp [slotsOf, DirItem.slots]
  rw [slotsAt_iff (by simp only [List.length_append, List.length_singleton]; omega)] at hslots
  have hshort : dirSlot v l (e.off + 32 * longs.length) = short := by
    have h1 := (hslots longs.length (by simp)).2
    rw [show 32 * ((slotsOf pre).length + longs.length) = e.off + 32 * longs.length by omega] at h1
    simpa using h1
  obtain ⟨dp', hup, hd'⟩ := eupdate_inside
    (e := { e with firstClus := clus, fileSize := size, dirty := true }) hd hv rfl
    (show e.off % 32 = 0 by omega) (show e.off < _ by omega) (by
      show slotOff e.off (derivedCount v l e.off) < _
      rw [hcount, hso]
      omega)
  simp only [hcount, hso, hshort] at hup
  obtain ⟨hfr, hnew⟩ := store_fields (show (e.off + 32 * longs.length) % 32 = 0 by omega) hshort
    clus size
  generalize storeCard v (dirAddr v.geom l (e.off + 32 * longs.length))
    (sneUpdate short clus size) =
    v' at hup hfr hnew
  -- the update changes no byte of the directory outside of the slot
  have hout : ∀ k < l.length * v.geom.bytsPerClus, k < e.off + 32 * longs.length ∨
      e.off + 32 * longs.length + 32 ≤ k → fileByte v' l k = fileByte v l k := by
    intro k hk hside
    apply hfr.fileByte
    rintro ⟨m, hm, heq⟩
    have := dirAddr_inj hd.chain hd.nodup hk (by omega) heq
    omega
  refine ⟨v', dp', _, hup, hfr, ?_⟩
  apply listing_image (hfr.liveDir hd')
  apply himg.replace hfr.geom
  · intro it hit
    rw [List.mem_singleton] at hit
    rw [hit]
    exact wf_sneUpdate (himg.wf (.live longs short) (by simp)) clus size
  · rw [hlens.1, hlens.2]
  · intro k hk hside
    rw [hlens.2] at hside
    exact hout k hk (by omega)
  · rw [show slotsOf [.live longs (sneUpdate short clus size)] =
      longs ++ [sneUpdate short clus size] by simp [slotsOf, DirItem.slots],
      slotsAt_iff (by simp only [List.length_append, List.length_singleton]; omega), hfr.geom]
    intro j hj
    rw [List.length_append, List.length_singleton] at hj
    refine ⟨by omega, ?_⟩
    by_cases hjn : j < longs.length
    · rw [dirSlot_congr fun k hk ↦ hout _ (by omega) (by omega), List.getElem_append_left hjn]
      have h1 := (hslots j (by simp; omega)).2
      rwa [List.getElem_append_left hjn] at h1
    · have hje : j = longs.length := by omega
      subst hje
      rw [show 32 * ((slotsOf pre).length + longs.length) = e.off + 32 * longs.length by omega,
        hnew]
      simp

/-- A slot marked as deleted. -/
def markDeleted (de : List UInt8) : List UInt8 := emptyEntry :: de.drop 1

private theorem markDeleted_wf {de : List UInt8} (h : de.length = 32) :
    (DirItem.deleted (markDeleted de)).Wf := by
  refine ⟨?_, rfl⟩
  simp [markDeleted, h]

private theorem dirSlot_marked {off : Nat} (h0 : fileByte v' l off = emptyEntry)
    (h : ∀ k, 0 < k → k < 32 → fileByte v' l (off + k) = fileByte v l (off + k)) :
    dirSlot v' l off = markDeleted (dirSlot v l off) := by
  apply List.ext_getElem
  · simp [markDeleted]
  · intro k hk1 hk2
    rw [length_dirSlot] at hk1
    rw [getElem_dirSlot]
    cases k with
    | zero => exact h0
    | succ k =>
      simp only [markDeleted, List.getElem_cons_succ, List.getElem_drop]
      rw [getElem_dirSlot, h (k + 1) (by omega) hk1, Nat.add_comm 1 k]

/-- A deleted slot is one slot. -/
theorem slotsOf_deleted (des : List (List UInt8)) :
    slotsOf (des.map .deleted) = des := by
  simp [slotsOf, List.flatMap_map, DirItem.slots]

/-- A removal marks the slots of the entry as deleted, and changes nothing else. -/
theorem remove_own {dp e : Dirent} {pre post : List DirItem} {longs : List (List UInt8)}
    {short : List UInt8} (hd : LiveDir v l dp) (hv : e.valid = 1)
    (himg : ImageFrom v l 0 (pre ++ [DirItem.live longs short] ++ post))
    (hoff : e.off = 32 * (slotsOf pre).length) (hcount : derivedCount v l e.off = longs.length) :
    ∃ v' dp' e', eremove v dp e = .ok (v', dp', e') ∧
      Framed (markAddrs v.geom l e.off (longs.length + 1)) v v' ∧
      (∀ j < longs.length + 1, fileByte v' l (e.off + 32 * j) = emptyEntry) ∧ LiveDir v' l dp' ∧
      (∀ k < l.length * v.geom.bytsPerClus, (∀ j < longs.length + 1, k ≠ e.off + 32 * j) →
        fileByte v' l k = fileByte v l k) ∧
      ImageFrom v' l 0 (pre ++ ((longs ++ [short]).map markDeleted).map .deleted ++ post) := by
  obtain ⟨hb, hin, hslots⟩ := himg.entry
  have hlen2 : (slotsOf [.live longs short]).length = longs.length + 1 := by
    simp [slotsOf, DirItem.slots]
  rw [slotsAt_iff (by simp only [List.length_append, List.length_singleton]; omega)] at hslots
  obtain ⟨v', dp', hrem, hfr, hd', hmarks⟩ := eremove_inside hd hv (by omega)
    (by rw [hcount]; omega) (by rw [hcount]; omega)
  rw [hcount] at hfr hmarks
  -- only the first bytes of the slots of the entry change
  have hout : ∀ k < l.length * v.geom.bytsPerClus,
      (∀ j < longs.length + 1, k ≠ e.off + 32 * j) → fileByte v' l k = fileByte v l k := by
    intro k hk hne
    apply hfr.fileByte
    rintro ⟨j, hj, heq⟩
    exact hne j hj (dirAddr_inj hd.chain hd.nodup hk (by omega) heq)
  refine ⟨v', dp', _, hrem, hfr, hmarks, hd', hout, ?_⟩
  apply himg.replace hfr.geom
  · intro it hit
    simp only [List.mem_map] at hit
    obtain ⟨_, ⟨de, hde, rfl⟩, rfl⟩ := hit
    apply markDeleted_wf
    obtain ⟨j, hj, rfl⟩ := List.mem_iff_getElem.mp hde
    rw [← (hslots j hj).2, length_dirSlot]
  · rw [slotsOf_deleted, hlen2]
    simp
  · intro k hk hside
    rw [hlen2] at hside
    apply hout k hk
    intro j hj
    omega
  · rw [slotsOf_deleted, slotsAt_iff (by simp; omega), hfr.geom]
    intro j hj
    rw [List.length_map] at hj
    obtain ⟨h1, h2⟩ := hslots j hj
    rw [List.length_append, List.length_singleton] at hj
    refine ⟨h1, ?_⟩
    rw [List.getElem_map, ← h2]
    apply dirSlot_marked
    · have := hmarks j hj
      rwa [show e.off + 32 * j = 32 * ((slotsOf pre).length + j) by omega] at this
    · intro k hk hk32
      apply hout _ (by omega)
      intro i hi
      omega

-- Some first cluster shows where a wrong update went.
private theorem exists_clus_ne (b : UInt8) : ∃ clus < 2 ^ 32, UInt8.ofNat clus ≠ b := by
  by_cases h : b = 0
  · refine ⟨1, by decide, ?_⟩
    rw [h]
    decide
  · exact ⟨0, by decide, fun h0 ↦ h h0.symm⟩

private theorem update_elsewhere {dp e : Dirent} (hd : LiveDir v l dp) (hv : e.valid = 1)
    (ha : e.off % 32 = 0) (hoff : e.off < 2 ^ 32) (hin : e.off < l.length * v.geom.bytsPerClus)
    (hcount : derivedCount v l e.off ≠ 0) : ∃ clus < 2 ^ 32, ∀ v' dp' e',
    eupdate v dp { e with firstClus := clus, fileSize := 0, dirty := true } = .ok (v', dp', e') →
    ¬ Framed (fieldAddrs v.geom l e.off) v v' := by
  have hcb : derivedCount v l e.off < 2 ^ 27 := by
    have := (fileByte v l e.off &&& ~~~lastLongEntry).toNat_lt
    simp only [derivedCount, slotCount]
    omega
  have hsa := slotOff_mod ha (derivedCount v l e.off)
  by_cases hs : slotOff e.off (derivedCount v l e.off) < l.length * v.geom.bytsPerClus
  · -- another slot of the directory
    obtain ⟨clus, hc, hne⟩ := exists_clus_ne
      (fileByte v l (slotOff e.off (derivedCount v l e.off) + 26))
    refine ⟨clus, hc, ?_⟩
    intro v' dp' e' hup hfr
    obtain ⟨dp1, hup1, _⟩ := eupdate_inside
      (e := { e with firstClus := clus, fileSize := 0, dirty := true }) hd hv rfl ha hin hs
    rw [hup1] at hup
    have hdisj := slotOff_disjoint e.off (j := 0) (Nat.pos_of_ne_zero hcount) hcb
    rw [slotOff_zero hoff] at hdisj
    have hend := slot_end_le v.geom _ hsa hs
    have hend0 := slot_end_le v.geom _ ha hin
    have hkeep := hfr.fileByte (l := l) (k := slotOff e.off (derivedCount v l e.off) + 26) (by
      rintro ⟨k, hk, heq⟩
      have := dirAddr_inj hd.chain hd.nodup (by omega) (by omega) heq
      omega)
    injection hup with hup
    injection hup with hup
    rw [← hup] at hkeep
    have hlen := length_sneUpdate (length_dirSlot v l (slotOff e.off (derivedCount v l e.off)))
      clus 0
    rw [fileByte_storeCard, (dirAddr_slot v.geom l hsa (by decide)).1,
      store_apply_mem _ _ _ _ (by rw [hlen]; decide)] at hkeep
    have hlo := sneUpdate_lo (length_dirSlot v l (slotOff e.off (derivedCount v l e.off))) clus 0
    rw [List.getD_eq_getElem?_getD, List.getElem?_eq_getElem (by rw [hlen]; decide),
      Option.getD_some] at hlo
    exact hne (hlo.symm.trans hkeep)
  · -- behind the end of the directory
    obtain ⟨clus, hc, hne⟩ := exists_clus_ne (v.card (wildAddr v.geom dp.firstClus))
    refine ⟨clus, hc, ?_⟩
    intro v' dp' e' hup hfr
    obtain ⟨v1, dp1, e1, hup1, hcard⟩ := eupdate_past
      (e := { e with firstClus := clus, fileSize := 0, dirty := true }) hd hv rfl ha hin
      (Nat.le_of_not_lt hs)
    rw [hup1] at hup
    injection hup with hup
    injection hup with hup
    subst hup
    have hkeep := hfr.card (wildAddr v.geom dp.firstClus) (by
      rintro ⟨k, hk, heq⟩
      obtain ⟨h1, h2⟩ := dirAddr_slot v.geom l ha (show k < 32 by omega)
      rw [h1, wildAddr, bsize] at heq
      omega)
    exact hne (hcard.symm.trans hkeep)

/-- `eupdate` and `eremove` touch only the slots of the entry exactly when the entry has a
long name, or a short name that starts with `@`: only then is its first byte the number of
its long-name slots. -/
theorem ownSlotsOnly_iff {items : List DirItem} {e d : Dirent} {cnt : Nat}
    {es1 es2 : List (Nat × Nat × Dirent)} (hd : LiveDir v l dp) (himg : ImageFrom v l 0 items)
    (hlist : listing v dp = .ok (es1 ++ (e.off, cnt, d) :: es2)) (hv : e.valid = 1) :
    OwnSlotsOnly v l dp e cnt d es1 es2 ↔ cnt ≠ 1 ∨ fileByte v l e.off = 0x40 := by
  rw [listing_image hd himg] at hlist
  injection hlist with hlist
  obtain ⟨pre, longs, short, post, rfl, rfl, hoff, rfl, rfl, rfl⟩ := entriesFrom_split items 0 hlist
  rw [Nat.zero_add] at hoff
  have hiff := derivedCount_eq_iff himg
  rw [← hoff] at hiff
  rw [← hiff]
  have hcons : pre ++ DirItem.live longs short :: post =
    pre ++ [DirItem.live longs short] ++ post := by simp
  rw [hcons] at himg
  obtain ⟨hb, hin, _⟩ := himg.entry
  constructor
  · intro hown
    by_contra hcount
    -- the count can only be wrong for an entry without a long name
    have hnil : longs.length = 0 := by
      by_contra hne
      exact hcount (hiff.mpr (.inl (by omega)))
    obtain ⟨clus, hc, hbad⟩ := update_elsewhere hd hv (by omega) (by omega) (by omega)
      (show derivedCount v l e.off ≠ 0 by omega)
    obtain ⟨v', dp', e', hup, hfr, _⟩ := hown.update clus 0 hc (Nat.two_pow_pos 32)
    rw [hnil] at hfr
    exact hbad v' dp' e' hup hfr
  · intro hcount
    have hlen : short.length = 32 := (himg.wf (.live longs short) (by simp)).2.2.1
    constructor
    · intro clus size hc hs
      obtain ⟨v', dp', e', hup, hfr, hl'⟩ := update_own hd hv himg hoff hcount clus size
      refine ⟨v', dp', e', hup, hfr, ?_⟩
      rw [hl', List.append_assoc, entriesFrom_append, List.singleton_append, entriesFrom,
        decodeEntry_sneUpdate {} longs hlen hc hs, hoff]
      simp only [Nat.zero_add]
    · obtain ⟨v', dp', e', hrem, hfr, hmarks, hd', -, himg'⟩ := remove_own hd hv himg hoff hcount
      refine ⟨v', dp', e', hrem, hfr, hmarks, ?_⟩
      rw [listing_image hd' himg', List.append_assoc, entriesFrom_append, entriesFrom_deleted]
      simp only [Nat.zero_add, List.length_map, List.length_append, List.length_singleton,
        ← Nat.add_assoc]

/-- The long-name slot of the file `ab`. -/
def abLong : List UInt8 := lne 0x41 0 (lneChars charLongName [0x61, 0x62])

/-- The short-name slot of a file with the given name and nothing in it. -/
def emptyShort (name : List UInt8) : List UInt8 :=
  sne (name ++ List.replicate (charShortName - name.length) spaceCh) attrArchive 0 0

/-- The file `ab` with a long name, and the files `@C` and `A` with a short name only. -/
def smallItems : List DirItem :=
  [.live [abLong] (emptyShort [0x41, 0x42]), .live [] (emptyShort [0x40, 0x43]),
    .live [] (emptyShort [0x41])]

/-- The small volume with these files in its root directory. -/
def smallDir : Volume :=
  { smallVolume with
    card := store smallVolume.card (smallGeom.clusAddr 2) (slotsOf smallItems).flatten }

/-- The root of the small volume is live. -/
theorem smallDir_live : LiveDir smallDir [2] smallRoot where
  chain := ⟨⟨by decide, by decide⟩, by decide⟩
  nodup := by decide
  onChain := ⟨rfl, fun _ ↦ rfl⟩
  firstClus := by decide
  isDir := by decide
  valid := rfl

/-- The root of the small volume holds its items. -/
theorem smallDir_image : ImageFrom smallDir [2] 0 smallItems where
  wf := by
    intro it hit
    simp only [smallItems, List.mem_cons, List.not_mem_nil, or_false] at hit
    rcases hit with rfl | rfl | rfl
    · refine ⟨⟨?_, ?_, ?_, trivial⟩, ?_, ?_, ?_, ?_, ?_⟩ <;> decide
    · refine ⟨trivial, ?_, ?_, ?_, ?_, ?_⟩ <;> decide
    · refine ⟨trivial, ?_, ?_, ?_, ?_, ?_⟩ <;> decide
  slots := by
    rw [slotsAt_iff (by decide)]
    decide +kernel
  ends := .inr (by decide +kernel)
  bound := by decide

/-- The cached entry of a file of the small directory. -/
def smallCached (off : Nat) : Dirent := { attr := attrArchive, valid := 1, ref := 1, off }

/-- The file `ab` is updated and removed in its own slots. -/
theorem ownSlotsOnly_small : OwnSlotsOnly smallDir [2] smallRoot (smallCached 0) 2
    (decodeEntry {} [abLong] (emptyShort [0x41, 0x42])) []
    [(64, 1, decodeEntry {} [] (emptyShort [0x40, 0x43])),
      (96, 1, decodeEntry {} [] (emptyShort [0x41]))] :=
  (ownSlotsOnly_iff smallDir_live smallDir_image (listing_image smallDir_live smallDir_image)
    rfl).mpr (.inl (by decide))

/-- The file `A`, with a short name only: its first byte is taken for one long-name slot, and
the update goes to the slot behind it. -/
theorem not_ownSlotsOnly_small : ImageFrom smallDir [2] 0 smallItems ∧
    LiveDir smallDir [2] smallRoot ∧
    listing smallDir smallRoot = .ok ([(0, 2, decodeEntry {} [abLong] (emptyShort [0x41, 0x42])),
      (64, 1, decodeEntry {} [] (emptyShort [0x40, 0x43]))] ++
      [(96, 1, decodeEntry {} [] (emptyShort [0x41]))]) ∧
    ¬ OwnSlotsOnly smallDir [2] smallRoot (smallCached 96) 1
      (decodeEntry {} [] (emptyShort [0x41]))
      [(0, 2, decodeEntry {} [abLong] (emptyShort [0x41, 0x42])),
        (64, 1, decodeEntry {} [] (emptyShort [0x40, 0x43]))] [] := by
  refine ⟨smallDir_image, smallDir_live, listing_image smallDir_live smallDir_image, ?_⟩
  intro hown
  obtain ⟨clus, hc, hbad⟩ := update_elsewhere (e := smallCached 96) smallDir_live rfl (by decide)
    (by decide) (by decide) (by decide +kernel)
  obtain ⟨v', dp', e', hup, hfr, _⟩ := hown.update clus 0 hc (by decide)
  exact hbad v' dp' e' hup hfr

end Xv6K210.Fs
