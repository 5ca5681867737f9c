import Xv6K210.Fs.Contents

/-!
# Slots of a directory

Source `kernel/fs/fat32.c:494–557,615–650,784–825`. A directory is the byte array
of its cluster chain, read and written in 32-byte slots that never cross a cluster
boundary. What one access through the cursor does is stated here on that array.
-/

namespace Xv6K210.Fs

open Xv6K210.Base Function

/-- The slot at offset `off` of the directory with chain `l`. -/
def dirSlot (v : Volume) (l : List Nat) (off : Nat) : List UInt8 :=
  (List.range 32).map fun k ↦ fileByte v l (off + k)

/-- Offset of the slot `j` places behind `off`; offsets are 32-bit numbers. -/
def slotOff (off j : Nat) : Nat := (off + 32 * j) % 2 ^ 32

/-- A slot has 32 bytes. -/
@[simp] theorem length_dirSlot (v : Volume) (l : List Nat) (off : Nat) :
    (dirSlot v l off).length = 32 := by
  simp [dirSlot]

/-- The byte `k` of a slot. -/
theorem getElem_dirSlot (v : Volume) (l : List Nat) (off k : Nat)
    (h : k < (dirSlot v l off).length) : (dirSlot v l off)[k] = fileByte v l (off + k) := by
  simp [dirSlot]

/-- The first byte of a slot. -/
theorem dirSlot_first (v : Volume) (l : List Nat) (off : Nat) :
    (dirSlot v l off).getD 0 0 = fileByte v l off := by
  rw [List.getD_eq_getElem?_getD, List.getElem?_eq_getElem (by simp), getElem_dirSlot]
  rfl

/-- Clusters hold whole slots. -/
theorem slot_in_cluster (g : Geom) {off : Nat} (h : off % 32 = 0) :
    off % g.bytsPerClus + 32 ≤ g.bytsPerClus ∧ off % g.bytsPerClus % 32 = 0 := by
  have hpos := g.bytsPerClus_pos
  have hlt := Nat.mod_lt off hpos
  have hdvd : 32 ∣ g.bytsPerClus := by
    rw [Geom.bytsPerClus]
    exact Dvd.dvd.mul_left (by decide) _
  have hmod : off % g.bytsPerClus % 32 = 0 := by
    rw [Nat.mod_mod_of_dvd _ hdvd]
    exact h
  obtain ⟨m, hm⟩ := hdvd
  rw [hm] at hlt hmod ⊢
  omega

/-- The end of a slot inside the chain is inside the chain. -/
theorem slot_end_le (g : Geom) {n : Nat} (off : Nat) (h : off % 32 = 0)
    (hn : off < n * g.bytsPerClus) :
    off + 32 ≤ n * g.bytsPerClus := by
  have hdvd : 32 ∣ n * g.bytsPerClus := by
    rw [Geom.bytsPerClus]
    exact Dvd.dvd.mul_left (Dvd.dvd.mul_left (by decide) _) _
  obtain ⟨m, hm⟩ := hdvd
  rw [hm] at hn ⊢
  omega

private theorem toU32_natCast {x : Nat} (h : x < 2 ^ 32) : toU32 (x : Int) = x := by
  simp only [toU32]
  omega

private theorem toU32_mod (g : Geom) (off : Nat) :
    toU32 ((off % g.bytsPerClus : Nat) : Int) = off % g.bytsPerClus := by
  have h1 := Nat.mod_lt off g.bytsPerClus_pos
  have h2 := g.bytsPerClus_lt
  exact toU32_natCast (by omega)

private theorem load_getD {bs : List UInt8} {n : Nat} (h : bs.length = n) :
    load (fun i ↦ bs.getD i 0) 0 n = bs := by
  apply List.ext_getElem
  · simp [h]
  · intro k h1 h2
    simp [load, h2]

/-- Reading bytes of a slot under the cursor. -/
theorem readClus_inside {v : Volume} {l : List Nat} (hl : IsChain v l) {off n c : Nat}
    (hc : l[off / v.geom.bytsPerClus]? = some c) (hn : 0 < n)
    (hm : off % v.geom.bytsPerClus + n ≤ v.geom.bytsPerClus) :
    readClus v c ((off % v.geom.bytsPerClus : Nat) : Int) n =
      .ok ((List.range n).map fun k ↦ fileByte v l (off + k)) := by
  have hcr := hl.inRange c (List.mem_of_getElem? hc)
  rw [readClus, toU32_mod, rwClus_read hcr hm hn, load_cluster hc hm]

/-- Writing bytes of a slot under the cursor. -/
theorem writeClus_inside {v : Volume} {c : Nat} (off : Nat) (bs : List UInt8)
    (hc : v.geom.InRange c)
    (hn : 0 < bs.length) (hm : off % v.geom.bytsPerClus + bs.length ≤ v.geom.bytsPerClus) :
    writeClus v c ((off % v.geom.bytsPerClus : Nat) : Int) bs =
      .ok (storeCard v (v.geom.clusAddr c + off % v.geom.bytsPerClus) bs) := by
  have hx := rwClus_storeCard (v := v) 0 (off % v.geom.bytsPerClus)
    (fun i ↦ bs.getD i 0) hc hm hn
  rw [writeClus, toU32_mod, hx, load_getD rfl]

/-- What `enext` sees inside the chain. -/
theorem enextSlot_inside {v : Volume} {dp : Dirent} {l : List Nat} (hl : IsChain v l)
    (ho : OnChain dp l) (hf : dp.firstClus ≠ 0) {off : Nat} (ha : off % 32 = 0)
    (hlen : off < l.length * v.geom.bytsPerClus) :
    ∃ dp', enextSlot v dp off = .ok (dp', dirSlot v l off) ∧ SameEntry dp dp' ∧ OnChain dp' l := by
  have hidx : off / v.geom.bytsPerClus < l.length :=
    Nat.div_lt_of_lt_mul (by rwa [Nat.mul_comm])
  have hc := List.getElem?_eq_getElem hidx
  have hm := (slot_in_cluster v.geom ha).1
  refine ⟨_, ?_, ?_, ho.move hc⟩
  · rw [enextSlot, relocClus_inside hl ho hf false hc]
    simp only
    rw [if_neg (by omega), readClus_inside hl hc (by decide) hm]
    rfl
  · rfl

/-- What `enext` sees behind the end of the chain. -/
theorem enextSlot_past {v : Volume} {dp : Dirent} {l : List Nat} (hl : IsChain v l)
    (ho : OnChain dp l) (hf : dp.firstClus ≠ 0) (off : Nat)
    (hlen : l.length * v.geom.bytsPerClus ≤ off) :
    ∃ dp', enextSlot v dp off = .ok (dp', []) ∧ SameEntry dp dp' ∧ OnChain dp' l := by
  have hidx : l.length ≤ off / v.geom.bytsPerClus :=
    (Nat.le_div_iff_mul_le v.geom.bytsPerClus_pos).mpr hlen
  refine ⟨{ dp with curClus := dp.firstClus, clusCnt := 0 }, ?_, rfl,
    ho.move (ho.getElem?_zero hf)⟩
  rw [enextSlot, relocClus_past hl ho hf hidx]
  simp only [if_true]

/-! ### Writing slots -/

/-- Write a list of slots, one behind the other. -/
def putSlots (v : Volume) (dp : Dirent) (off : Nat) :
    List (List UInt8) → Except Panic (Volume × Dirent)
  | [] => .ok (v, dp)
  | de :: des =>
    match putSlot v dp off de with
    | .error p => .error p
    | .ok (v, dp) => putSlots v dp ((off + 32) % 2 ^ 32) des

/-- The slots `des` were written from `off` on into the directory `i`: its chain grew to
`l`, and no other byte of any file changed. -/
structure PutSlots (v : Volume) (chain : Nat → List Nat) (i : Nat) (dp : Dirent) (off : Nat)
    (des : List (List UInt8)) (v' : Volume) (dp' : Dirent) (l : List Nat) : Prop where
  grown : Extended v chain i dp v' dp' l
  pre : chain i <+: l
  inside : ∀ j < des.length, slotOff off j < l.length * v.geom.bytsPerClus
  slots : ∀ j (h : j < des.length), dirSlot v' l (slotOff off j) = des[j]
  kept : ∀ k < (chain i).length * v.geom.bytsPerClus,
    (∀ j < des.length, k < slotOff off j ∨ slotOff off j + 32 ≤ k) →
    fileByte v' l k = fileByte v (chain i) k
  others : ∀ j, j ≠ i → SameBytes v v' (chain j)
  reserved : v'.fat 1 ≠ 0
  length : ∀ need, (∀ j < des.length, slotOff off j / v.geom.bytsPerClus < need) →
    l.length ≤ max (chain i).length need
  zeroed : ∀ k < l.length * v.geom.bytsPerClus, (chain i).length * v.geom.bytsPerClus ≤ k →
    (∀ j < des.length, k < slotOff off j ∨ slotOff off j + 32 ≤ k) → fileByte v' l k = 0
  free : freeCount v' + (l.length - (chain i).length) = freeCount v

private theorem putSlot_total {v : Volume} {chain : Nat → List Nat} (hw : FatWf v chain)
    (h1 : v.fat 1 ≠ 0) {dp : Dirent} {i off : Nat} (he : OnChain dp (chain i))
    (hf : dp.firstClus ≠ 0) {de : List UInt8} (hde : de.length = 32) (ha : off % 32 = 0)
    (hoff : off ≤ (chain i).length * v.geom.bytsPerClus)
    (hfree : (chain i).length ≤ off / v.geom.bytsPerClus → 0 < freeCount v) :
    ∃ v' dp' l, putSlot v dp off de = .ok (v', dp') ∧ Extended v chain i dp v' dp' l ∧
      chain i <+: l ∧ off + 32 ≤ l.length * v.geom.bytsPerClus ∧
      l.length = max (chain i).length (off / v.geom.bytsPerClus + 1) ∧
      (∀ k < l.length * v.geom.bytsPerClus, off ≤ k → k < off + 32 →
        fileByte v' l k = de.getD (k - off) 0) ∧
      (∀ k < (chain i).length * v.geom.bytsPerClus, k < off ∨ off + 32 ≤ k →
        fileByte v' l k = fileByte v (chain i) k) ∧
      (∀ j, j ≠ i → SameBytes v v' (chain j)) ∧
      freeCount v' + (l.length - (chain i).length) = freeCount v ∧ v'.fat 1 ≠ 0 ∧
      ∀ k < l.length * v.geom.bytsPerClus, (chain i).length * v.geom.bytsPerClus ≤ k →
        k < off ∨ off + 32 ≤ k → fileByte v' l k = 0 := by
  obtain ⟨v1, dp1, l, c, hr, hext, hpre, hlen, hc, hcur, hsame, hcnt, hr1, hzero⟩ :=
    relocClus_total hw h1 he hf hoff hfree
  have hg1 := hext.geom
  have hch : IsChain v1 l := by
    have := hext.wf.isChain i
    rwa [update_self] at this
  have hnd : l.Nodup := by
    have := hext.wf.forest.nodup i
    rwa [update_self] at this
  have hcr := hch.inRange c (List.mem_of_getElem? hc)
  have hm := (slot_in_cluster v.geom ha).1
  have hx : ∃ v2 out, rwClus v1 dp1.curClus (.write fun i ↦ some (de.getD i 0)) 0
      (toU32 ((off % v.geom.bytsPerClus : Nat) : Int)) 32 = .ok (v2, 32, out) ∧
      v2 = storeCard v1 (v.geom.clusAddr c + off % v.geom.bytsPerClus) de := by
    have hx1 := rwClus_storeCard (v := v1) (n := 32) 0 (off % v.geom.bytsPerClus)
      (fun i ↦ de.getD i 0) hcr (by rwa [hg1]) (by decide)
    rw [load_getD hde, hg1] at hx1
    rw [hcur, toU32_mod]
    exact ⟨_, _, hx1, rfl⟩
  obtain ⟨v2, out, hx, hv2⟩ := hx
  have hend : off + 32 ≤ l.length * v.geom.bytsPerClus := by
    apply slot_end_le v.geom _ ha
    have hdm := Nat.div_add_mod' off v.geom.bytsPerClus
    have hmod := Nat.mod_lt off v.geom.bytsPerClus_pos
    have hle : (off / v.geom.bytsPerClus + 1) * v.geom.bytsPerClus ≤
        l.length * v.geom.bytsPerClus := Nat.mul_le_mul_right _ (by omega)
    rw [Nat.add_mul, Nat.one_mul] at hle
    omega
  have hbyte : ∀ k < l.length * v.geom.bytsPerClus, fileByte v2 l k =
      if h : off ≤ k ∧ k < off + de.length then de[k - off] else fileByte v1 l k := by
    intro k hk
    have := fileByte_store hch hnd de (by rwa [hg1]) (by rw [hde, hg1]; exact hm)
      (k := k) (by rwa [hg1])
    rw [hg1, ← hv2] at this
    exact this
  refine ⟨v2, dp1, l, ?_, hext.rwClus hx, hpre, hend, hlen, fun k hk h2 h3 ↦ ?_,
    fun k hk hout ↦ ?_, fun j hj b hb x hxb ↦ ?_, ?_, ?_, fun k hk hle hout ↦ ?_⟩
  · rw [putSlot, hr]
    simp only
    rw [hx]
  · rw [hbyte k hk, dif_pos ⟨h2, by omega⟩, List.getD_eq_getElem?_getD,
      List.getElem?_eq_getElem (by omega)]
    rfl
  · have hk1 : k < l.length * v.geom.bytsPerClus :=
      Nat.lt_of_lt_of_le hk (Nat.mul_le_mul_right _ hext.grown)
    rw [hbyte k hk1, dif_neg (by omega)]
    exact (hsame i).fileByte_eq hg1 hpre hk
  · have hbr : v1.geom.InRange b := by
      rw [hg1]
      exact hw.forest.inDom j b hb
    have hbc : b ≠ c := by
      rintro rfl
      apply hj
      apply hext.wf.forest.index_unique (c := b)
      · rwa [update_of_ne hj]
      · rw [update_self]
        exact List.mem_of_getElem? hc
    have h5 := store_cluster de (o := off % v.geom.bytsPerClus) (x := x) hcr hbr
      (by rw [hde, hg1]; exact hm) (by rwa [hg1]) (.inl hbc)
    rw [hg1, ← hv2] at h5
    exact h5.trans (hsame j b hb x hxb)
  · rw [freeCount_congr (rwClus_keeps hx).2 (rwClus_keeps hx).1]
    exact hcnt
  · rw [(rwClus_keeps hx).1]
    exact hr1
  · rw [hbyte k hk, dif_neg (by omega)]
    exact hzero k hk hle

/-- The slots behind the first one. -/
theorem slotOff_succ (off j : Nat) :
    slotOff ((off + 32) % 2 ^ 32) j = slotOff off (j + 1) := by
  simp only [slotOff]
  omega

/-- The first slot. -/
theorem slotOff_zero {off : Nat} (h : off < 2 ^ 32) : slotOff off 0 = off := by
  simp only [slotOff]
  omega

/-- Slots written in one run do not overlap. -/
theorem slotOff_disjoint (off : Nat) {j k : Nat} (h : j < k) (hk : k < 2 ^ 27) :
    slotOff off j + 32 ≤ slotOff off k ∨ slotOff off k + 32 ≤ slotOff off j := by
  simp only [slotOff]
  omega

/-- Slot offsets are aligned. -/
theorem slotOff_mod {off : Nat} (ha : off % 32 = 0) (j : Nat) : slotOff off j % 32 = 0 := by
  simp only [slotOff]
  omega

/-- Writing slots on a volume with `need` clusters for the directory. -/
theorem putSlots_total : ∀ (des : List (List UInt8)) {v : Volume} {chain : Nat → List Nat}
    {dp : Dirent} {i : Nat} (off need : Nat), FatWf v chain → v.fat 1 ≠ 0 → OnChain dp (chain i) →
    dp.firstClus ≠ 0 → (∀ de ∈ des, de.length = 32) → des.length < 2 ^ 27 → off % 32 = 0 →
    off < 2 ^ 32 → off ≤ (chain i).length * v.geom.bytsPerClus →
    (∀ j < des.length, slotOff off j / v.geom.bytsPerClus < need) →
    need - (chain i).length ≤ freeCount v →
    ∃ v' dp' l, putSlots v dp off des = .ok (v', dp') ∧ PutSlots v chain i dp off des v' dp' l
  | [], v, chain, dp, i, off, need, hw, h1, he, hf, _, _, _, _, _, _, _ =>
    ⟨v, dp, chain i, rfl, ⟨by rwa [update_eq_self], he, Nat.le_refl _, rfl, rfl⟩,
      List.prefix_rfl, fun j hj ↦ absurd hj (Nat.not_lt_zero j),
      fun j hj ↦ absurd hj (Nat.not_lt_zero j), fun _ _ _ ↦ rfl, fun _ _ _ _ _ _ ↦ rfl, h1,
      fun _ _ ↦ Nat.le_max_left _ _, fun k hk hle _ ↦ absurd hk (Nat.not_lt.mpr hle), by omega⟩
  | de :: des, v, chain, dp, i, off, need, hw, h1, he, hf, hde, hcnt, ha, hlt, hoff, hneed,
      hroom => by
    have h0 := hneed 0 (by simp)
    rw [slotOff_zero hlt] at h0
    obtain ⟨v1, dp1, l1, hput, hext, hpre, hend, hlen, hnew, hkept, hothers, hfree, hr1, hzero⟩ :=
      putSlot_total hw h1 he hf (hde de (by simp)) ha hoff (by omega)
    have hg1 := hext.geom
    have hf1 : dp1.firstClus ≠ 0 := by
      rw [hext.entry]
      exact hf
    have hle1 := hpre.length_le
    obtain ⟨v', dp', l, hrest, hp⟩ := putSlots_total des (i := i)
      ((off + 32) % 2 ^ 32) need hext.wf hr1
      (by rw [update_self]; exact hext.onChain) hf1
      (fun d hd ↦ hde d (List.mem_cons_of_mem _ hd))
      (by simp only [List.length_cons] at hcnt; omega) (by omega) (by omega)
      (by
        rw [update_self, hg1]
        omega)
      (by
        intro j hj
        rw [slotOff_succ, hg1]
        exact hneed (j + 1) (by simp only [List.length_cons]; omega))
      (by
        rw [update_self]
        omega)
    have hpre' := hp.pre
    have hkept' := hp.kept
    have hin' := hp.inside
    have hlen' := hpre'.length_le
    rw [update_self] at hpre' hkept' hlen'
    rw [hg1] at hkept' hin'
    have hmul : l1.length * v.geom.bytsPerClus ≤ l.length * v.geom.bytsPerClus :=
      Nat.mul_le_mul_right _ hlen'
    -- the later slots leave the first one and everything before this run
    have hlater : ∀ k < l1.length * v.geom.bytsPerClus,
        (∀ j < des.length, k < slotOff off (j + 1) ∨ slotOff off (j + 1) + 32 ≤ k) →
        fileByte v' l k = fileByte v1 l1 k := by
      intro k hk hout
      apply hkept' k hk
      intro j hj
      rw [slotOff_succ]
      exact hout j hj
    have hlong := hp.length
    have hzero' := hp.zeroed
    have hfree' := hp.free
    rw [update_self] at hlong hzero' hfree'
    rw [hg1] at hlong hzero'
    refine ⟨v', dp', l, ?_, hext.trans hp.grown, hpre.trans hpre', fun j hj ↦ ?_,
      fun j hj ↦ ?_, fun k hk hout ↦ ?_, fun j hj ↦ ?_, hp.reserved, fun need hneed ↦ ?_,
      fun k hk hle hout ↦ ?_, by omega⟩
    · rw [putSlots, hput]
      exact hrest
    · cases j with
      | zero =>
        rw [slotOff_zero hlt]
        omega
      | succ j =>
        rw [← slotOff_succ]
        exact hin' j (by simpa using hj)
    · cases j with
      | zero =>
        rw [slotOff_zero hlt]
        show dirSlot v' l off = de
        apply List.ext_getElem
        · rw [length_dirSlot]
          exact (hde de (by simp)).symm
        · intro k hk1 hk2
          rw [length_dirSlot] at hk1
          rw [getElem_dirSlot, hlater (off + k) (by omega), hnew (off + k) (by omega) (by omega)
            (by omega), Nat.add_sub_cancel_left, List.getD_eq_getElem?_getD,
            List.getElem?_eq_getElem hk2]
          · rfl
          · intro m hm
            have hd := slotOff_disjoint off (j := 0) (k := m + 1) (by omega)
              (by simp only [List.length_cons] at hcnt; omega)
            rw [slotOff_zero hlt] at hd
            omega
      | succ j =>
        rw [← slotOff_succ, hp.slots j (by simpa using hj)]
        rfl
    · have hk1 : k < l1.length * v.geom.bytsPerClus :=
        Nat.lt_of_lt_of_le hk (Nat.mul_le_mul_right _ hle1)
      have hfirst := hout 0 (by simp)
      rw [slotOff_zero hlt] at hfirst
      rw [hlater k hk1 fun j hj ↦ hout (j + 1) (by simp only [List.length_cons]; omega)]
      exact hkept k hk hfirst
    · intro b hb x hx
      have h2 := hp.others j hj
      rw [update_of_ne hj] at h2
      have h3 := h2 b hb x (by rwa [hg1])
      rw [hg1] at h3
      exact h3.trans (hothers j hj b hb x hx)
    · have hfirst := hneed 0 (by simp)
      rw [slotOff_zero hlt] at hfirst
      have hrest := hlong need fun j hj ↦ by
        rw [slotOff_succ]
        exact hneed (j + 1) (by simp only [List.length_cons]; omega)
      omega
    · have hfirst := hout 0 (by simp)
      rw [slotOff_zero hlt] at hfirst
      by_cases hk1 : k < l1.length * v.geom.bytsPerClus
      · rw [hlater k hk1 fun j hj ↦ hout (j + 1) (by simp only [List.length_cons]; omega)]
        exact hzero k hk1 hle hfirst
      · apply hzero' k hk (by omega)
        intro j hj
        rw [slotOff_succ]
        exact hout (j + 1) (by simp only [List.length_cons]; omega)

end Xv6K210.Fs
