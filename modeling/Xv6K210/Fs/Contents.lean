import Xv6K210.Fs.Integrity
import Mathlib.Data.Finset.Card
import Mathlib.Order.Interval.Finset.Nat

/-!
# File contents

Source `kernel/fs/fat32.c:253–378,654–664`. The bytes of a file, read along
its cluster chain, behave as one growable byte array: `eread`, `ewrite` and `etrunc` on
any set of files refine the operations on arrays, wherever the cursors stand.
-/

namespace Xv6K210.Fs

open Xv6K210.Base Function

/-! ### The byte array of an entry -/

/-- The clusters reached from `clus`, as `etrunc` walks them. -/
def walk (v : Volume) : Nat → Nat → List Nat
  | 0, _ => []
  | fuel + 1, clus =>
    if 2 ≤ clus ∧ clus < fat32Eoc then clus :: walk v fuel (readFat v clus) else []

/-- The cluster chain of an entry. -/
def chainOf (v : Volume) (e : Dirent) : List Nat := walk v v.geom.dataClusCnt e.firstClus

/-- Byte `k` along the chain `l`. -/
def fileByte (v : Volume) (l : List Nat) (k : Nat) : UInt8 :=
  v.card (v.geom.clusAddr (l.getD (k / v.geom.bytsPerClus) 0) + k % v.geom.bytsPerClus)

/-- The contents of a file. -/
def contents (v : Volume) (e : Dirent) : List UInt8 :=
  (List.range e.fileSize).map (fileByte v (chainOf v e))

/-- Number of clusters that hold `x` bytes. -/
def clustersFor (g : Geom) (x : Nat) : Nat := (x + g.bytsPerClus - 1) / g.bytsPerClus

/-- Number of free data clusters. -/
def freeCount (v : Volume) : Nat :=
  ((Finset.Icc 2 (v.geom.dataClusCnt + 1)).filter fun c ↦ v.fat c = 0).card

private theorem walk_chain {v : Volume} : ∀ (l : List Nat) (c fuel : Nat), IsChain v (c :: l) →
    (c :: l).length ≤ fuel → walk v fuel c = c :: l
  | l, c, 0, _, hlen => by simp at hlen
  | l, c, fuel + 1, hl, hlen => by
    have hc := hl.inRange c (by simp)
    rw [walk, if_pos ⟨hc.1, hc.lt_eoc⟩, readFat_of_inRange hc]
    cases l with
    | nil =>
      have hstop : EocMark (v.fat c) := hl.linked
      cases fuel with
      | zero => rfl
      | succ fuel =>
        rw [walk, if_neg]
        intro hx
        exact absurd hstop.1 (Nat.not_le.mpr hx.2)
    | cons d l =>
      have hlink := hl.linked
      have htail : IsChain v (d :: l) :=
        ⟨hlink.2, fun x hx ↦ hl.inRange x (List.mem_cons_of_mem _ hx)⟩
      rw [hlink.1, walk_chain l d fuel htail]
      simp only [List.length_cons] at hlen ⊢
      omega

/-- The walk finds the chain of the entry. -/
theorem chainOf_eq {v : Volume} {chain : Nat → List Nat} (hw : FatWf v chain) {e : Dirent}
    {i : Nat} (he : OnChain e (chain i)) : chainOf v e = chain i := by
  unfold chainOf
  cases hc : chain i with
  | nil =>
    have hz : e.firstClus = 0 := by
      by_contra hf
      have := he.getElem?_zero hf
      simp [hc] at this
    rw [hz]
    cases v.geom.dataClusCnt <;> rfl
  | cons c l =>
    have hhead : e.firstClus = c := by
      have hh := he.head
      rw [hc, List.head?_cons] at hh
      split at hh
      · cases hh
      · exact (Option.some.inj hh).symm
    have hch := hw.isChain i
    have hnd := hw.forest.nodup i
    rw [hc] at hch hnd
    rw [hhead]
    exact walk_chain l c _ hch (hch.length_le hnd)

/-! ### Allocation on a volume that is not full -/

/-- The free clusters depend on the table and the geometry only. -/
theorem freeCount_congr {v v' : Volume} (hg : v'.geom = v.geom) (hf : v'.fat = v.fat) :
    freeCount v' = freeCount v := by
  unfold freeCount
  rw [hg, hf]

/-- With a free data cluster and both reserved entries in use, `alloc_clus` returns a data
cluster and takes exactly that one. -/
theorem allocClus_total {v : Volume} (h0 : v.fat 0 ≠ 0) (h1 : v.fat 1 ≠ 0)
    (hfree : 0 < freeCount v) :
    ∃ v' c, allocClus v = .ok (v', c) ∧ v.geom.InRange c ∧ freeCount v' + 1 = freeCount v := by
  obtain ⟨d, hd⟩ := Finset.card_pos.mp hfree
  rw [Finset.mem_filter, Finset.mem_Icc] at hd
  have hdr : v.geom.InRange d := hd.1
  cases hs : allocScan v with
  | none => exact absurd hd.2 (allocScan_eq_none hs d hdr.lt_fat)
  | some c =>
    obtain ⟨hz, _, hleast⟩ := allocScan_eq_some hs
    have hc : v.geom.InRange c := by
      constructor
      · by_contra hlt
        have hcases : c = 0 ∨ c = 1 := by omega
        rcases hcases with rfl | rfl
        · exact h0 hz
        · exact h1 hz
      · by_contra hgt
        exact hleast d (by have := hdr.2; omega) hd.2
    refine ⟨_, c, by rw [allocClus, hs], hc, ?_⟩
    have hset : ((Finset.Icc 2 (v.geom.dataClusCnt + 1)).filter fun x ↦
        update v.fat c (fat32Eoc + 7) x = 0) =
        ((Finset.Icc 2 (v.geom.dataClusCnt + 1)).filter fun x ↦ v.fat x = 0).erase c := by
      ext x
      rw [Finset.mem_erase, Finset.mem_filter, Finset.mem_filter]
      by_cases hx : x = c
      · subst hx
        simp
      · rw [update_of_ne hx]
        simp [hx]
    have hmem : c ∈ (Finset.Icc 2 (v.geom.dataClusCnt + 1)).filter fun x ↦ v.fat x = 0 := by
      rw [Finset.mem_filter, Finset.mem_Icc]
      exact ⟨hc, hz⟩
    show ((Finset.Icc 2 (v.geom.dataClusCnt + 1)).filter fun x ↦
      update v.fat c (fat32Eoc + 7) x = 0).card + 1 = _
    rw [hset]
    exact Finset.card_erase_add_one hmem

/-- The bytes of the clusters of `l` are the same in both volumes. -/
def SameBytes (v v' : Volume) (l : List Nat) : Prop :=
  ∀ c ∈ l, ∀ x < v.geom.bytsPerClus,
    v'.card (v.geom.clusAddr c + x) = v.card (v.geom.clusAddr c + x)

/-- The bytes along a chain are those of its clusters. -/
theorem SameBytes.fileByte_eq {v v' : Volume} {l l' : List Nat} (h : SameBytes v v' l)
    (hg : v'.geom = v.geom) (hp : l <+: l') {k : Nat}
    (hk : k < l.length * v.geom.bytsPerClus) : fileByte v' l' k = fileByte v l k := by
  have hidx : k / v.geom.bytsPerClus < l.length :=
    Nat.div_lt_of_lt_mul (by rwa [Nat.mul_comm])
  obtain ⟨t, rfl⟩ := hp
  have hget : (l ++ t).getD (k / v.geom.bytsPerClus) 0 = l[k / v.geom.bytsPerClus] := by
    rw [List.getD_eq_getElem?_getD, List.getElem?_append_left hidx, List.getElem?_eq_getElem hidx]
    rfl
  have hget' : l.getD (k / v.geom.bytsPerClus) 0 = l[k / v.geom.bytsPerClus] := by
    rw [List.getD_eq_getElem?_getD, List.getElem?_eq_getElem hidx]
    rfl
  simp only [fileByte, hg, hget, hget']
  exact h _ (List.getElem_mem hidx) _ (Nat.mod_lt _ v.geom.bytsPerClus_pos)

/-- A fresh cluster is zeroed, every other one keeps its bytes. -/
theorem allocClus_sameBytes {v v' : Volume} {chain : Nat → List Nat} (hw : FatWf v chain) {c : Nat}
    (ha : allocClus v = .ok (v', c)) (hc : v.geom.InRange c) (j : Nat) :
    SameBytes v v' (chain j) := by
  intro d hd x hx
  have hne : d ≠ c := by
    rintro rfl
    exact hw.used hd (allocClus_fat ha).2.2
  have hdisj := Geom.clusAddr_disjoint (hw.forest.inDom j d hd) hc hne
  have hz := zeroClus_card (v := { v with fat := update v.fat c (fat32Eoc + 7) }) hc
    (v.geom.clusAddr d + x)
  rw [(allocClus_eq_ok ha).2, hz]
  exact if_neg (by dsimp only; omega)

/-- A fresh cluster is zeroed. -/
theorem allocClus_zero {v v' : Volume} {c : Nat} (ha : allocClus v = .ok (v', c))
    (hc : v.geom.InRange c) {x : Nat} (hx : x < v.geom.bytsPerClus) :
    v'.card (v.geom.clusAddr c + x) = 0 := by
  have hz := zeroClus_card (v := { v with fat := update v.fat c (fat32Eoc + 7) }) hc
    (v.geom.clusAddr c + x)
  rw [(allocClus_eq_ok ha).2, hz]
  exact if_pos ⟨Nat.le_add_right _ _, Nat.add_lt_add_left hx _⟩

/-- The cursor moves to the cluster of `off`, at most one past the end, and one cluster is
taken if it has to be, zeroed. -/
theorem relocClus_total {v : Volume} {chain : Nat → List Nat} (hw : FatWf v chain)
    (h1 : v.fat 1 ≠ 0) {e : Dirent} {i off : Nat} (he : OnChain e (chain i))
    (hf : e.firstClus ≠ 0) (hoff : off ≤ (chain i).length * v.geom.bytsPerClus)
    (hfree : (chain i).length ≤ off / v.geom.bytsPerClus → 0 < freeCount v) :
    ∃ v' e' l c, relocClus v e off true = .ok (v', e', (off % v.geom.bytsPerClus : Nat)) ∧
      Extended v chain i e v' e' l ∧ chain i <+: l ∧
      l.length = max (chain i).length (off / v.geom.bytsPerClus + 1) ∧
      l[off / v.geom.bytsPerClus]? = some c ∧ e'.curClus = c ∧
      (∀ j, SameBytes v v' (chain j)) ∧
      freeCount v' + (l.length - (chain i).length) = freeCount v ∧ v'.fat 1 ≠ 0 ∧
      ∀ k < l.length * v.geom.bytsPerClus, (chain i).length * v.geom.bytsPerClus ≤ k →
        fileByte v' l k = 0 := by
  by_cases hin : off / v.geom.bytsPerClus < (chain i).length
  · have hc := List.getElem?_eq_getElem hin
    refine ⟨v, _, chain i, _, relocClus_inside (hw.isChain i) he hf true hc, ?_, List.prefix_rfl,
      by omega, hc, rfl, fun _ _ _ _ _ ↦ rfl, by omega, h1, fun k hk hle ↦ by omega⟩
    exact ⟨by rwa [update_eq_self], he.move hc, Nat.le_refl _, rfl, rfl⟩
  · have hidx : off / v.geom.bytsPerClus = (chain i).length := by
      have := Nat.div_le_of_le_mul (by rwa [Nat.mul_comm] : off ≤ v.geom.bytsPerClus * _)
      omega
    have hne : chain i ≠ [] := by
      intro hnil
      have := he.getElem?_zero hf
      simp [hnil] at this
    have hz : (chain i).getLast? = some ((chain i).getLast hne) := List.getLast?_eq_some_getLast hne
    obtain ⟨v1, c, ha, hc, hcount⟩ := allocClus_total hw.reserved h1 (hfree (by omega))
    have hw1 := hw.extend hz ha hc
    have hl1 := allocLink_later ((chain i).getLast hne) ha
    have he1 : OnChain { e with curClus := c, clusCnt := (chain i).length } (chain i ++ [c]) := by
      constructor
      · rw [List.head?_append_of_ne_nil _ hne]
        exact he.head
      · intro _
        simp
    have hat : (chain i ++ [c])[off /
        (writeFat v1 ((chain i).getLast hne) c).geom.bytsPerClus]? = some c := by
      rw [hl1.geom, hidx]
      simp
    have hch : IsChain (writeFat v1 ((chain i).getLast hne) c) (chain i ++ [c]) := by
      have := hw1.isChain i
      rwa [update_self] at this
    refine ⟨_, _, chain i ++ [c], c, ?_, ⟨hw1, he1.move hat, by simp, hl1.geom, rfl⟩,
      List.prefix_append _ _, by simp; omega, by rw [hidx]; simp, rfl, ?_, ?_, ?_, ?_⟩
    · rw [relocClus_grow (hw.isChain i) he hf hz (by omega), ha]
      show relocClus _ _ _ _ = _
      rw [relocClus_inside hch he1 hf true hat, hl1.geom]
    · intro j d hd x hx
      rw [writeFat_card]
      exact allocClus_sameBytes hw ha hc j d hd x hx
    · have hzr : v1.geom.InRange ((chain i).getLast hne) := by
        rw [(allocClus_fat ha).1]
        exact hw.forest.inDom i _ (List.getLast_mem hne)
      have hzu : v1.fat ((chain i).getLast hne) ≠ 0 :=
        (allocClus_later ha).used hw.reserved _ (hw.used (List.getLast_mem hne))
      have hc0 : c ≠ 0 := by
        have := hc.1
        omega
      have hsame : freeCount (writeFat v1 ((chain i).getLast hne) c) = freeCount v1 := by
        unfold freeCount
        rw [writeFat_geom]
        congr 1
        apply Finset.filter_congr
        intro x _
        by_cases hx : x = (chain i).getLast hne
        · rw [hx, writeFat_of_inRange hzr]
          simp [hc0, hzu]
        · rw [writeFat_fat_of_ne _ hx]
      rw [hsame, List.length_append, List.length_singleton]
      omega
    · exact hl1.used hw.reserved 1 h1
    · intro k hk hle
      have hdiv : k / v.geom.bytsPerClus = (chain i).length := by
        rw [List.length_append, List.length_singleton] at hk
        have hlow := (Nat.le_div_iff_mul_le v.geom.bytsPerClus_pos).mpr hle
        have hhigh := Nat.div_lt_of_lt_mul (by rwa [Nat.mul_comm] at hk)
        omega
      unfold fileByte
      rw [hl1.geom, hdiv, writeFat_card, List.getD_eq_getElem?_getD]
      simp only [List.getElem?_concat_length, Option.getD_some]
      exact allocClus_zero ha hc (Nat.mod_lt _ v.geom.bytsPerClus_pos)

/-! ### Reading -/

/-- Bytes of one cluster. -/
theorem sameCluster (b off k : Nat) (hk : off % b + k < b) :
    (off + k) / b = off / b ∧ (off + k) % b = off % b + k := by
  have hb : 0 < b := by omega
  have hdm : off = off % b + b * (off / b) := (Nat.mod_add_div off b).symm
  constructor
  · apply Nat.div_eq_of_lt_le
    · rw [Nat.mul_comm]
      omega
    · rw [Nat.add_mul, Nat.one_mul, Nat.mul_comm (off / b) b]
      omega
  · have he : off + k = off % b + k + b * (off / b) := by omega
    rw [he, Nat.add_mul_mod_self_left, Nat.mod_eq_of_lt hk]

/-- A range of bytes inside one cluster. -/
theorem load_cluster {v : Volume} {l : List Nat} {off m c : Nat}
    (hc : l[off / v.geom.bytsPerClus]? = some c)
    (hm : off % v.geom.bytsPerClus + m ≤ v.geom.bytsPerClus) :
    load v.card (v.geom.clusAddr c + off % v.geom.bytsPerClus) m =
      (List.range m).map fun k ↦ fileByte v l (off + k) := by
  apply List.map_congr_left
  intro k hk
  have hkm := List.mem_range.mp hk
  obtain ⟨hd, hr⟩ := sameCluster v.geom.bytsPerClus off k (by omega)
  rw [fileByte, hd, hr, List.getD_eq_getElem?_getD, hc, Option.getD_some, Nat.add_assoc]

private theorem map_range_add {β : Type} (f : Nat → β) (m n : Nat) :
    (List.range (m + n)).map f =
      (List.range m).map f ++ (List.range n).map fun k ↦ f (m + k) := by
  rw [List.range_add, List.map_append, List.map_map]
  rfl

/-- The loop of `eread` delivers the bytes along the chain. -/
theorem ereadLoop_total {v : Volume} {l : List Nat} (hl : IsChain v l) (n : Nat) :
    ∀ (fuel : Nat) {e : Dirent} (off tot : Nat) (out : List UInt8), OnChain e l →
    e.firstClus ≠ 0 → n - tot ≤ fuel → tot ≤ n →
    off + (n - tot) ≤ l.length * v.geom.bytsPerClus → off + (n - tot) < 2 ^ 32 →
    ∃ e', ereadLoop (.read fun _ ↦ true) n fuel v e off tot out =
        .ok (v, e', n, out ++ (List.range (n - tot)).map fun k ↦ fileByte v l (off + k)) ∧
      SameEntry e e' ∧ OnChain e' l
  | 0, e, off, tot, out, he, _, hfuel, htot, _, _ => by
    have heq : tot = n := by omega
    refine ⟨e, ?_, rfl, he⟩
    simp [ereadLoop, heq]
  | fuel + 1, e, off, tot, out, he, hf, hfuel, htot, hlen, hlim => by
    by_cases hlt : tot < n
    · have hpos := v.geom.bytsPerClus_pos
      have hmod := Nat.mod_lt off hpos
      have hidx : off / v.geom.bytsPerClus < l.length :=
        Nat.div_lt_of_lt_mul (by rw [Nat.mul_comm]; omega)
      have hc := List.getElem?_eq_getElem hidx
      have hcr := hl.inRange _ (List.mem_of_getElem? hc)
      have hcur : e.curClus < fat32Eoc :=
        (hl.inRange _ (List.mem_of_getElem? (he.cursor hf))).lt_eoc
      generalize hm : min (v.geom.bytsPerClus - off % v.geom.bytsPerClus) (n - tot) = m
      have hm1 : 0 < m := by omega
      have hm2 : off % v.geom.bytsPerClus + m ≤ v.geom.bytsPerClus := by omega
      have hm3 : m ≤ n - tot := by omega
      obtain ⟨e', hrest, hse, hon⟩ := ereadLoop_total hl n fuel _ _ (out ++
        (List.range m).map fun k ↦ fileByte v l (off + k)) (he.move hc) hf
        (show n - (tot + m) ≤ fuel by omega) (by omega)
        (show off + m + (n - (tot + m)) ≤ _ by omega) (by omega)
      refine ⟨e', ?_, SameEntry.seek _ _ hse, hon⟩
      rw [ereadLoop, if_pos ⟨hcur, hlt⟩, relocClus_inside hl he hf false hc]
      simp only [hm]
      rw [rwClus_read hcr hm2 hm1, load_cluster hc hm2]
      simp only [ne_eq, not_true_eq_false, if_false]
      have hsplit : n - tot = m + (n - (tot + m)) := by omega
      rw [Nat.mod_eq_of_lt (by omega), hrest, hsplit, map_range_add, List.append_assoc]
      simp only [Nat.add_assoc]
    · have heq : tot = n := by omega
      refine ⟨e, ?_, rfl, he⟩
      simp [ereadLoop, heq]

/-! ### Writing -/

/-- The loop of `ewrite` stored `w` bytes of `d`, from position `tot` on, at offset `off`
of entry `i`: the chain grew to `l` and no other byte of any file changed. -/
structure Written (v : Volume) (chain : Nat → List Nat) (i : Nat) (e : Dirent) (d : ByteMem)
    (off tot w : Nat) (v' : Volume) (e' : Dirent) (l : List Nat) : Prop where
  grown : Extended v chain i e v' e' l
  pre : chain i <+: l
  length : l.length = max (chain i).length (clustersFor v.geom (off + w))
  data : ∀ k, off ≤ k → k < off + w → fileByte v' l k = d (tot + (k - off))
  kept : ∀ k < (chain i).length * v.geom.bytsPerClus, k < off ∨ off + w ≤ k →
    fileByte v' l k = fileByte v (chain i) k
  others : ∀ j, j ≠ i → SameBytes v v' (chain j)
  free : freeCount v' + (l.length - (chain i).length) = freeCount v
  reserved : v'.fat 1 ≠ 0

/-- Fewer bytes need fewer clusters. -/
theorem clustersFor_le {g : Geom} {x k : Nat} (h : x ≤ k * g.bytsPerClus) :
    clustersFor g x ≤ k := by
  have hpos := g.bytsPerClus_pos
  unfold clustersFor
  apply Nat.le_of_lt_succ
  apply Nat.div_lt_of_lt_mul
  rw [Nat.mul_comm, Nat.succ_mul]
  omega

/-- The cluster of an offset is among those that hold the bytes up to behind it. -/
theorem div_lt_clustersFor {g : Geom} {off x : Nat} (h : off < x) :
    off / g.bytsPerClus < clustersFor g x := by
  have hpos := g.bytsPerClus_pos
  unfold clustersFor
  have hle : off + g.bytsPerClus ≤ x + g.bytsPerClus - 1 := by omega
  have := Nat.div_le_div_right (c := g.bytsPerClus) hle
  rw [Nat.add_div_right _ hpos] at this
  omega

/-- The volume after one transfer to the card. -/
def storeCard (v : Volume) (a : Nat) (bs : List UInt8) : Volume :=
  { v with card := store v.card a bs }

/-- A complete write inside a data cluster, as one store. -/
theorem rwClus_storeCard {v : Volume} {c n : Nat} (k off : Nat) (d : ByteMem)
    (hc : v.geom.InRange c) (h : off + n ≤ v.geom.bytsPerClus) (hn : 0 < n) :
    rwClus v c (.write fun i ↦ some (d i)) k off n =
      .ok (storeCard v (v.geom.clusAddr c + off) (load d k n), n, []) :=
  rwClus_write d hc h hn

/-- A transfer keeps the geometry. -/
@[simp] theorem storeCard_geom (v : Volume) (a : Nat) (bs : List UInt8) :
    (storeCard v a bs).geom = v.geom := rfl

/-- One store inside cluster `c`, seen by the bytes of any data cluster. -/
theorem store_cluster {v : Volume} {c d o x : Nat} (bs : List UInt8)
    (hc : v.geom.InRange c) (hd : v.geom.InRange d) (ho : o + bs.length ≤ v.geom.bytsPerClus)
    (hx : x < v.geom.bytsPerClus) (hout : d ≠ c ∨ x < o ∨ o + bs.length ≤ x) :
    (storeCard v (v.geom.clusAddr c + o) bs).card (v.geom.clusAddr d + x) =
      v.card (v.geom.clusAddr d + x) := by
  apply store_apply_of_not_mem
  by_cases hdc : d = c
  · subst hdc
    rcases hout with h | h | h
    · exact absurd rfl h
    · left
      omega
    · right
      omega
  · have := Geom.clusAddr_disjoint hc hd (fun h ↦ hdc h.symm)
    omega

/-- The bytes of a file after one store inside the cluster of `off`. -/
theorem fileByte_store {v : Volume} {l : List Nat} (hl : IsChain v l) (hn : l.Nodup)
    {off c : Nat} (bs : List UInt8) (hc : l[off / v.geom.bytsPerClus]? = some c)
    (hm : off % v.geom.bytsPerClus + bs.length ≤ v.geom.bytsPerClus) {k : Nat}
    (hk : k < l.length * v.geom.bytsPerClus) :
    fileByte (storeCard v (v.geom.clusAddr c + off % v.geom.bytsPerClus) bs) l k =
      if h : off ≤ k ∧ k < off + bs.length then bs[k - off] else fileByte v l k := by
  have hpos := v.geom.bytsPerClus_pos
  have hidx : k / v.geom.bytsPerClus < l.length :=
    Nat.div_lt_of_lt_mul (by rwa [Nat.mul_comm])
  have hget : l.getD (k / v.geom.bytsPerClus) 0 = l[k / v.geom.bytsPerClus] := by
    rw [List.getD_eq_getElem?_getD, List.getElem?_eq_getElem hidx]
    rfl
  by_cases h : off ≤ k ∧ k < off + bs.length
  · rw [dif_pos h]
    obtain ⟨hd, hr⟩ := sameCluster v.geom.bytsPerClus off (k - off) (by omega)
    rw [Nat.add_sub_cancel' h.1] at hd hr
    rw [fileByte, storeCard_geom, hd, hr, List.getD_eq_getElem?_getD, hc, Option.getD_some,
      ← Nat.add_assoc]
    exact store_apply_mem _ _ _ _ (by omega)
  · rw [dif_neg h]
    rw [fileByte, fileByte, storeCard_geom, hget]
    apply store_cluster _ (hl.inRange _ (List.mem_of_getElem? hc))
      (hl.inRange _ (List.getElem_mem hidx)) hm (Nat.mod_lt _ hpos)
    by_cases hci : l[k / v.geom.bytsPerClus] = c
    · -- the same cluster: the chain has no repetition, so `k` is in the same round
      right
      have hsame : k / v.geom.bytsPerClus = off / v.geom.bytsPerClus := by
        obtain ⟨hlt, hcc⟩ := List.getElem?_eq_some_iff.mp hc
        exact (List.Nodup.getElem_inj_iff hn).mp (hci.trans hcc.symm)
      have hdk := Nat.div_add_mod k v.geom.bytsPerClus
      have hdo := Nat.div_add_mod off v.geom.bytsPerClus
      rw [hsame] at hdk
      omega
    · exact .inl hci

private theorem written_nothing {v : Volume} {chain : Nat → List Nat} (hw : FatWf v chain)
    (h1 : v.fat 1 ≠ 0) {e : Dirent} {i off : Nat} (he : OnChain e (chain i))
    (hoff : off ≤ (chain i).length * v.geom.bytsPerClus) {d : ByteMem} {tot : Nat} :
    Written v chain i e d off tot 0 v e (chain i) where
  grown := ⟨by rwa [update_eq_self], he, Nat.le_refl _, rfl, rfl⟩
  pre := List.prefix_rfl
  length := by
    have := clustersFor_le hoff
    rw [Nat.add_zero]
    omega
  data k h2 h3 := by omega
  kept _ _ _ := rfl
  others _ _ _ _ _ _ := rfl
  free := by omega
  reserved := h1

-- One round extends a chain of `a` clusters to `b` of them, up to the cluster `q` of the offset,
-- and the rounds behind it to the `c` that the bytes need.
section Round

variable {a b c f f1 f2 q : Nat}

private theorem room_left (hb : b = max a (q + 1)) (hf : f1 + (b - a) = f) (hfree : c - a ≤ f) :
    c - b ≤ f1 := by omega

private theorem length_left (hb : b = max a (q + 1)) (hq : q < c) : max b c = max a c := by omega

private theorem free_left (hab : a ≤ b) (hbc : b ≤ c) (hf : f1 + (b - a) = f)
    (hf2 : f2 + (c - b) = f1) : f2 + (c - a) = f := by omega

end Round

/-- The loop of `ewrite` on a volume that is not full. -/
theorem ewriteLoop_total (d : ByteMem) (n : Nat) : ∀ (fuel : Nat) {v : Volume}
    {chain : Nat → List Nat} {e : Dirent} {i : Nat} (off tot : Nat), FatWf v chain → v.fat 1 ≠ 0 →
    OnChain e (chain i) → e.firstClus ≠ 0 → off ≤ (chain i).length * v.geom.bytsPerClus →
    n - tot ≤ fuel → tot ≤ n → off + (n - tot) < 2 ^ 32 →
    clustersFor v.geom (off + (n - tot)) - (chain i).length ≤ freeCount v →
    ∃ v' e' l, ewriteLoop (.write fun k ↦ some (d k)) n fuel v e off tot =
        .ok (v', e', off + (n - tot), n) ∧
      Written v chain i e d off tot (n - tot) v' e' l
  | 0, v, chain, e, i, off, tot, hw, h1, he, hf, hoff, hfuel, htot, hlim, hfree => by
    have heq : tot = n := by omega
    refine ⟨v, e, chain i, by simp [ewriteLoop, heq], ?_⟩
    rw [heq, Nat.sub_self]
    exact written_nothing hw h1 he hoff
  | fuel + 1, v, chain, e, i, off, tot, hw, h1, he, hf, hoff, hfuel, htot, hlim, hfree => by
    by_cases hlt : tot < n
    · have hpos := v.geom.bytsPerClus_pos
      have hmod := Nat.mod_lt off hpos
      have hneed := div_lt_clustersFor (g := v.geom) (show off < off + (n - tot) by omega)
      obtain ⟨v1, e1, l1, c, hr, hext, hpre, hlen, hc, hcur, hsame, hcnt, hr1, -⟩ :=
        relocClus_total hw h1 he hf hoff (by omega)
      rw [ewriteLoop, if_pos hlt, hr]
      simp only [hcur]
      generalize hm : min (v.geom.bytsPerClus - off % v.geom.bytsPerClus) (n - tot) = m
      have hm1 : 0 < m := by omega
      have hm2 : off % v.geom.bytsPerClus + m ≤ v.geom.bytsPerClus := by omega
      have hm3 : m ≤ n - tot := by omega
      clear hm
      -- `s` bytes are left behind this piece
      obtain ⟨s, hs⟩ := Nat.exists_eq_add_of_le hm3
      rw [hs] at hfuel hlim hfree hneed ⊢
      have hn : n = tot + (m + s) := by omega
      clear hs hm3
      have hg1 := hext.geom
      have hch1 : IsChain v1 l1 := by
        have := hext.wf.isChain i
        rwa [update_self] at this
      have hnd1 : l1.Nodup := by
        have := hext.wf.forest.nodup i
        rwa [update_self] at this
      have hcr := hch1.inRange c (List.mem_of_getElem? hc)
      have hx := rwClus_storeCard (v := v1) tot (off % v.geom.bytsPerClus) d hcr
        (by rwa [hg1]) hm1
      rw [hg1] at hx
      generalize hv2 : storeCard v1 (v.geom.clusAddr c + off % v.geom.bytsPerClus)
        (load d tot m) = v2 at hx
      have hg2 : v2.geom = v1.geom := (rwClus_keeps hx).2
      have hext2 := hext.rwClus hx
      have hend : off + m ≤ l1.length * v.geom.bytsPerClus := by
        have hdm := Nat.div_add_mod' off v.geom.bytsPerClus
        have hle : (off / v.geom.bytsPerClus + 1) * v.geom.bytsPerClus ≤
            l1.length * v.geom.bytsPerClus := Nat.mul_le_mul_right _ (by omega)
        rw [Nat.add_mul, Nat.one_mul] at hle
        omega
      have hf1 : e1.firstClus ≠ 0 := by
        rw [hext.entry]
        exact hf
      have hleft : n - (tot + m) = s := by omega
      obtain ⟨v', e', l, hrest, hwr⟩ := ewriteLoop_total d n fuel (i := i) (off + m)
        (tot + m) hext2.wf (by rw [(rwClus_keeps hx).1]; exact hr1)
        (by rw [update_self]; exact hext2.onChain) hf1
        (by rw [update_self, hext2.geom]; exact hend)
        (by omega) (by omega) (by omega)
        (by
          rw [update_self, hext2.geom, hleft, Nat.add_assoc]
          rw [freeCount_congr hg2 (rwClus_keeps hx).1]
          exact room_left hlen hcnt hfree)
      rw [hleft] at hrest hwr
      rw [Nat.add_assoc] at hrest
      clear hleft
      have hpre' := hwr.pre
      have hlen' := hwr.length
      have hdata' := hwr.data
      have hkept' := hwr.kept
      have hfree' := hwr.free
      rw [update_self] at hpre' hlen' hkept' hfree'
      rw [hg2, hg1] at hlen' hkept'
      refine ⟨v', e', l, ?_, hext2.trans hwr.grown, hpre.trans hpre', ?_, ?_, ?_, ?_, ?_,
        hwr.reserved⟩
      · rw [hx]
        simp only [ne_eq, not_true_eq_false, if_false]
        rw [Nat.mod_eq_of_lt (show off + m < 2 ^ 32 by omega), hrest]
      · rw [hlen', Nat.add_assoc]
        exact length_left hlen hneed
      · intro k hk1 hk2
        by_cases hkm : k < off + m
        · rw [hkept' k (by omega) (.inl hkm)]
          have := fileByte_store hch1 hnd1 (load d tot m) (by rwa [hg1])
            (by rw [length_load, hg1]; exact hm2) (k := k) (by rw [hg1]; omega)
          rw [hg1] at this
          rw [← hv2, this, dif_pos ⟨hk1, by rwa [length_load]⟩]
          have hget := getElem?_load d tot m (k - off)
          rw [if_pos (by omega)] at hget
          exact (List.getElem?_eq_some_iff.mp hget).2
        · rw [hdata' k (by omega) (by omega)]
          congr 1
          omega
      · intro k hk hout
        have hk1 : k < l1.length * v.geom.bytsPerClus :=
          Nat.lt_of_lt_of_le hk (Nat.mul_le_mul_right _ hext.grown)
        rw [hkept' k hk1 (by omega)]
        have := fileByte_store hch1 hnd1 (load d tot m) (by rwa [hg1])
          (by rw [length_load, hg1]; exact hm2) (k := k) (by rw [hg1]; exact hk1)
        rw [hg1] at this
        rw [← hv2, this, dif_neg (by rw [length_load]; omega)]
        exact (hsame i).fileByte_eq hg1 hpre hk
      · intro j hj b hb x hxb
        have h3 := hwr.others j hj
        rw [update_of_ne hj] at h3
        have h4 := h3 b hb x (by rwa [hg2, hg1])
        rw [hg2, hg1] at h4
        have hbr : v1.geom.InRange b := by
          rw [hg1]
          exact hw.forest.inDom j b hb
        have hbc : b ≠ c := by
          rintro rfl
          apply hj
          apply hext.wf.forest.index_unique (c := b)
          · rwa [update_of_ne hj]
          · rw [update_self]
            exact List.mem_of_getElem? hc
        have h5 := store_cluster (load d tot m) (o := off % v1.geom.bytsPerClus) (x := x)
          hcr hbr (by rw [length_load, hg1]; exact hm2) (by rwa [hg1]) (.inl hbc)
        rw [hg1, hv2] at h5
        exact h4.trans (h5.trans (hsame j b hb x hxb))
      · rw [freeCount_congr hg2 (rwClus_keeps hx).1] at hfree'
        exact free_left hpre.length_le hpre'.length_le hcnt hfree'
    · have heq : tot = n := by omega
      refine ⟨v, e, chain i, by simp [ewriteLoop, heq], ?_⟩
      rw [heq, Nat.sub_self]
      exact written_nothing hw h1 he hoff

/-- The result of a complete `ewrite` of `n` bytes of `d` at `off`. -/
structure WroteFile (v : Volume) (chain : Nat → List Nat) (i : Nat) (e : Dirent) (d : ByteMem)
    (off n : Nat) (v' : Volume) (e' : Dirent) (l : List Nat) : Prop where
  wf : FatWf v' (update chain i l)
  geom : v'.geom = v.geom
  covered : Covered v'.geom e' l
  attr : e'.attr = e.attr
  firstClus : e.firstClus ≠ 0 → e'.firstClus ≠ 0
  size : e'.fileSize = max e.fileSize (off + n)
  bytes : ∀ k < e'.fileSize, fileByte v' l k =
    if off ≤ k ∧ k < off + n then d (k - off) else fileByte v (chain i) k
  others : ∀ j, j ≠ i → SameBytes v v' (chain j)
  reserved : v'.fat 1 ≠ 0

-- The loop from an entry that has its first cluster, and the update of the size.
private theorem ewriteRest_total {v : Volume} {chain : Nat → List Nat} (hw : FatWf v chain)
    (h1 : v.fat 1 ≠ 0) {e : Dirent} {i off n : Nat} (he : Covered v.geom e (chain i))
    (hf : e.firstClus ≠ 0) (d : ByteMem) (hoff : off ≤ e.fileSize) (hlim : off + n < 2 ^ 32)
    (hroom : clustersFor v.geom (off + n) - (chain i).length ≤ freeCount v) :
    ∃ v' e' e'' l, ewriteLoop (.write fun k ↦ some (d k)) n n v e off 0 = .ok (v', e', off + n, n) ∧
      e'' = (if 0 < n ∧ e'.fileSize < off + n then
        { e' with fileSize := off + n, dirty := true } else e') ∧
      WroteFile v chain i e d off n v' e'' l := by
  obtain ⟨v', e', l, hloop, hwr⟩ := ewriteLoop_total (i := i) d n n off 0 hw h1 he.onChain hf
    (hoff.trans he.size) (by omega) (by omega) hlim hroom
  have hsize' : e'.fileSize = e.fileSize := by rw [hwr.grown.entry]
  have hfc' : e'.firstClus = e.firstClus := by rw [hwr.grown.entry]
  have hattr' : e'.attr = e.attr := by rw [hwr.grown.entry]
  have hlen := hwr.length
  have hg := hwr.grown.geom
  simp only [Nat.sub_zero] at hloop hwr hlen
  have hcap : off + n ≤ l.length * v.geom.bytsPerClus := by
    have hpos := v.geom.bytsPerClus_pos
    by_contra hgt
    have hlt : l.length * v.geom.bytsPerClus < off + n := by omega
    have hdiv := div_lt_clustersFor (g := v.geom) hlt
    rw [Nat.mul_div_cancel _ hpos] at hdiv
    omega
  have hcap' : e.fileSize ≤ l.length * v.geom.bytsPerClus :=
    he.size.trans (Nat.mul_le_mul_right _ (by omega))
  have hbytes : ∀ k < max e.fileSize (off + n), fileByte v' l k =
      if off ≤ k ∧ k < off + n then d (k - off) else fileByte v (chain i) k := by
    intro k hk
    have hsz := he.size
    by_cases hin : off ≤ k ∧ k < off + n
    · rw [if_pos hin, hwr.data k hin.1 hin.2, Nat.zero_add]
    · rw [if_neg hin]
      exact hwr.kept k (by omega) (by omega)
  refine ⟨v', e', _, l, hloop, rfl, ?_⟩
  split
  · next hc =>
    exact ⟨hwr.grown.wf, hg, ⟨⟨hwr.grown.onChain.head, hwr.grown.onChain.cursor⟩, by rwa [hg]⟩,
      hattr', fun hne ↦ by rwa [← hfc'] at hne, by dsimp only; omega,
      fun k hk ↦ hbytes k (by dsimp only at hk; omega), hwr.others, hwr.reserved⟩
  · next hc =>
    exact ⟨hwr.grown.wf, hg, ⟨hwr.grown.onChain, by rw [hg, hsize']; exact hcap'⟩,
      hattr', fun hne ↦ by rwa [← hfc'] at hne, by omega,
      fun k hk ↦ hbytes k (by omega), hwr.others, hwr.reserved⟩

/-- `ewrite` on a volume that is not full stores every byte and returns the count. -/
theorem ewrite_total {v : Volume} {chain : Nat → List Nat} (hw : FatWf v chain)
    (h1 : v.fat 1 ≠ 0) {e : Dirent} {i off n : Nat} (he : Covered v.geom e (chain i))
    (d : ByteMem) (hro : e.attr &&& attrReadOnly = 0) (hoff : off ≤ e.fileSize)
    (hlim : off + n < 2 ^ 32)
    (hroom : max 1 (clustersFor v.geom (off + n)) - (chain i).length ≤ freeCount v) :
    ∃ v' e' l, ewrite v e (.write fun k ↦ some (d k)) off n = .ok (v', e', toI32 n) ∧
      WroteFile v chain i e d off n v' e' l := by
  have hguard : ¬ (e.fileSize < off ∨ (off + n) % 2 ^ 32 < off ∨ 0xffffffff < off + n ∨
      e.attr &&& attrReadOnly ≠ 0) := by
    rw [Nat.mod_eq_of_lt hlim]
    simp only [hro, ne_eq, not_true_eq_false, or_false]
    omega
  by_cases hf : e.firstClus = 0
  · have hnil := he.onChain.eq_nil hf
    rw [hnil, List.length_nil, Nat.sub_zero] at hroom
    have hsize := he.size
    rw [hnil, List.length_nil, Nat.zero_mul] at hsize
    obtain ⟨v1, c, ha, hc, hcount⟩ := allocClus_total hw.reserved h1 (by omega)
    have hl1 := allocClus_later ha
    have hw1 := hw.start hnil ha hc
    have hc0 : c ≠ 0 := by
      have := hc.1
      omega
    have he1 : Covered v1.geom { e with firstClus := c, curClus := c, clusCnt := 0, dirty := true }
        (update chain i [c] i) := by
      rw [update_self]
      exact ⟨⟨by simp [hc0], fun _ ↦ rfl⟩, by dsimp only; omega⟩
    obtain ⟨v', e', e'', l, hloop, hee, hwr⟩ := ewriteRest_total hw1
      (hl1.used hw.reserved 1 h1) he1 hc0 d hoff hlim (by
        rw [update_self, List.length_singleton, hl1.geom]
        omega)
    refine ⟨v', e'', l, ?_, ?_⟩
    · rw [ewrite, if_neg hguard, ewriteFirst, if_pos hf, ha]
      simp only
      rw [hloop, hee]
    · refine ⟨?_, hwr.geom.trans hl1.geom, hwr.covered, hwr.attr, fun hne ↦ absurd hf hne,
        hwr.size, fun k hk ↦ ?_, fun j hj ↦ ?_, hwr.reserved⟩
      · have := hwr.wf
        rwa [update_idem] at this
      · rw [hwr.bytes k hk]
        have hks := hwr.size
        have hin : off ≤ k ∧ k < off + n := by
          dsimp only at hks
          omega
        rw [if_pos hin, if_pos hin]
      · have h2 := hwr.others j hj
        rw [update_of_ne hj] at h2
        intro b hb x hx
        have h3 := h2 b hb x (by rwa [hl1.geom])
        rw [hl1.geom] at h3
        exact h3.trans (allocClus_sameBytes hw ha hc j b hb x hx)
  · have hpos : 0 < (chain i).length := by
      have := (List.getElem?_eq_some_iff.mp (he.onChain.getElem?_zero hf)).1
      omega
    obtain ⟨v', e', e'', l, hloop, hee, hwr⟩ := ewriteRest_total hw h1 he hf d hoff hlim
      (by omega)
    refine ⟨v', e'', l, ?_, hwr⟩
    rw [ewrite, if_neg hguard, ewriteFirst, if_neg hf]
    simp only
    rw [hloop, hee]

/-- `eread` delivers the bytes of the file that the request covers. -/
theorem eread_total {v : Volume} {chain : Nat → List Nat} (hw : FatWf v chain) {e : Dirent}
    {i off n : Nat} (he : Covered v.geom e (chain i)) (hdir : e.attr &&& attrDirectory = 0)
    (hlim : off + n < 2 ^ 32) :
    ∃ e', eread v e (.read fun _ ↦ true) off n = .ok (v, e', toI32 (min n (e.fileSize - off)),
        ((contents v e).drop off).take n) ∧ SameEntry e e' ∧ OnChain e' (chain i) := by
  have hcont : contents v e = (List.range e.fileSize).map (fileByte v (chain i)) := by
    rw [contents, chainOf_eq hw he.onChain]
  by_cases hoff : e.fileSize < off
  · refine ⟨e, ?_, rfl, he.onChain⟩
    have hdrop : (contents v e).drop off = [] := by
      rw [hcont]
      exact List.drop_eq_nil_of_le (by simp; omega)
    have hmin : min n (e.fileSize - off) = 0 := by omega
    rw [eread, if_pos (.inl hoff), hdrop, hmin, List.take_nil]
    rfl
  · have hguard : ¬ (e.fileSize < off ∨ (off + n) % 2 ^ 32 < off ∨
        e.attr &&& attrDirectory ≠ 0) := by
      rw [Nat.mod_eq_of_lt hlim]
      simp only [hdir, ne_eq, not_true_eq_false, or_false]
      omega
    rw [eread, if_neg hguard, Nat.mod_eq_of_lt hlim]
    have hn : (if e.fileSize < off + n then e.fileSize - off else n) =
        min n (e.fileSize - off) := by
      split <;> omega
    simp only [hn]
    generalize hm : min n (e.fileSize - off) = m
    have hsz := he.size
    have hbytes : ((contents v e).drop off).take n =
        (List.range m).map fun k ↦ fileByte v (chain i) (off + k) := by
      rw [hcont]
      apply List.ext_getElem
      · simp
        omega
      · intro k hk1 hk2
        simp
    by_cases hm0 : m = 0
    · refine ⟨e, ?_, rfl, he.onChain⟩
      rw [hbytes, hm0]
      rfl
    · have hf : e.firstClus ≠ 0 := by
        intro hz
        have := he.onChain.eq_nil hz
        rw [this, List.length_nil, Nat.zero_mul] at hsz
        omega
      obtain ⟨e', hloop, hse, hon⟩ :=
        ereadLoop_total (hw.isChain i) m m off 0 [] he.onChain hf (by omega) (by omega) (by omega)
        (by omega)
      refine ⟨e', ?_, hse, hon⟩
      rw [hloop, hbytes]
      simp only [Nat.sub_zero, List.nil_append]

/-! ### The system of files refines a family of byte arrays -/

/-- Operations on regular files, with buffers that do not fault. -/
inductive FileOp where
  | write (i : Nat) (d : ByteMem) (off n : Nat)
  | read (i off n : Nat)
  | trunc (i : Nat)

/-- What an operation returns: its result and the bytes delivered to the caller. -/
structure FileOut where
  ret : Int
  bytes : List UInt8

/-- The entry that an operation works on. -/
def FileOp.target : FileOp → Nat
  | .write i _ _ _ => i
  | .read i _ _ => i
  | .trunc i => i

/-- One operation on the volume. -/
def stepFile (s : FsState) : FileOp → Except Panic (FsState × FileOut)
  | .write i d off n =>
    match s.ent i with
    | none => .ok (s, ⟨-1, []⟩)
    | some e => do
      let (v, e, r) ← ewrite s.vol e (.write fun k ↦ some (d k)) off n
      return (s.set v i (some e), ⟨r, []⟩)
  | .read i off n =>
    match s.ent i with
    | none => .ok (s, ⟨-1, []⟩)
    | some e => do
      let (v, e, r, out) ← eread s.vol e (.read fun _ ↦ true) off n
      return (s.set v i (some e), ⟨r, out⟩)
  | .trunc i =>
    match s.ent i with
    | none => .ok (s, ⟨-1, []⟩)
    | some e => .ok (s.set (etrunc s.vol e).1 i (some (etrunc s.vol e).2), ⟨0, []⟩)

/-- A sequence of operations and what they return. -/
def runFile (s : FsState) : List FileOp → Except Panic (FsState × List FileOut)
  | [] => .ok (s, [])
  | op :: ops => do
    let (s, o) ← stepFile s op
    let (s, os) ← runFile s ops
    return (s, o :: os)

/-- What the abstract machine returns: a count and the bytes delivered. -/
structure ArrayOut where
  count : Nat
  bytes : List UInt8

/-- Overwrite an array from `off` on, growing it as far as needed. -/
def overwrite (a : List UInt8) (off : Nat) (bs : List UInt8) : List UInt8 :=
  a.take off ++ bs ++ a.drop (off + bs.length)

/-- One operation on a family of byte arrays. -/
def stepArray (a : Nat → List UInt8) : FileOp → (Nat → List UInt8) × ArrayOut
  | .write i d off n => (update a i (overwrite (a i) off (load d 0 n)), ⟨n, []⟩)
  | .read i off n => (a, ⟨min n ((a i).length - off), ((a i).drop off).take n⟩)
  | .trunc i => (update a i [], ⟨0, []⟩)

/-- A sequence of operations on a family of byte arrays. -/
def runArray (a : Nat → List UInt8) : List FileOp → (Nat → List UInt8) × List ArrayOut
  | [] => (a, [])
  | op :: ops =>
    let r := stepArray a op
    let q := runArray r.1 ops
    (q.1, r.2 :: q.2)

/-- The byte arrays that a state holds. -/
def arrays (s : FsState) (i : Nat) : List UInt8 :=
  match s.ent i with
  | none => []
  | some e => contents s.vol e

/-- A writable regular file. -/
def Dirent.Regular (e : Dirent) : Prop :=
  e.attr &&& attrReadOnly = 0 ∧ e.attr &&& attrDirectory = 0

/-- The operation is on a writable regular file, inside the 32-bit range and, for a write,
not past the end of the file and with enough free clusters on the volume. -/
def FileOp.Legal (s : FsState) (op : FileOp) : Prop :=
  ∃ e, s.ent op.target = some e ∧ e.Regular ∧
    match op with
    | .write _ _ off n => off ≤ e.fileSize ∧ off + n < 2 ^ 32 ∧
        max 1 (clustersFor s.vol.geom (off + n)) - (chainOf s.vol e).length ≤ freeCount s.vol
    | .read _ off n => off + n < 2 ^ 32
    | .trunc _ => True

/-- Every operation of the sequence is legal in the state it finds. -/
def LegalRun (s : FsState) : List FileOp → Prop
  | [] => True
  | op :: ops => op.Legal s ∧ ∀ s' o, stepFile s op = .ok (s', o) → LegalRun s' ops

/-- The C result is the count, as an `int`. -/
def FileOut.Matches (o : FileOut) (a : ArrayOut) : Prop :=
  toU32 o.ret = a.count ∧ (a.count < 2 ^ 31 → o.ret = a.count) ∧ o.bytes = a.bytes

/-- The invariant of the refinement: the chains are intact and the reserved entry 1 of the
table is never free. -/
def Sound (s : FsState) : Prop := (∃ chain, Integrity s chain) ∧ s.vol.fat 1 ≠ 0

private theorem matches_toI32 {c : Nat} (bs : List UInt8) (hc : c < 2 ^ 32) :
    FileOut.Matches ⟨toI32 c, bs⟩ ⟨c, bs⟩ := by
  refine ⟨?_, fun h ↦ ?_, rfl⟩
  · simp only [toU32, toI32]
    split <;> omega
  · simp only [toI32, if_pos h]

/-- The bytes of a file after a write, as an array. -/
theorem overwrite_map {f g : Nat → UInt8} {size off n : Nat} (hoff : off ≤ size)
    {d : ByteMem} (h : ∀ k < max size (off + n), g k =
      if off ≤ k ∧ k < off + n then d (k - off) else f k) :
    (List.range (max size (off + n))).map g =
      overwrite ((List.range size).map f) off (load d 0 n) := by
  apply List.ext_getElem?
  intro k
  simp only [overwrite, length_load]
  have hlt : ((List.range size).map f).length = size := by simp
  by_cases hk : k < max size (off + n)
  · rw [List.getElem?_map, List.getElem?_range hk, Option.map_some, h k hk]
    by_cases h1 : k < off
    · rw [if_neg (by omega), List.append_assoc, List.getElem?_append_left (by simp; omega),
        List.getElem?_take_of_lt h1, List.getElem?_map, List.getElem?_range (by omega)]
      rfl
    · rw [List.append_assoc, List.getElem?_append_right (by simp; omega)]
      have hl : (((List.range size).map f).take off).length = off := by simp; omega
      rw [hl]
      by_cases h2 : k < off + n
      · rw [if_pos ⟨by omega, h2⟩, List.getElem?_append_left (by rw [length_load]; omega),
          getElem?_load, if_pos (by omega), Nat.zero_add]
      · rw [if_neg (by omega), List.getElem?_append_right (by rw [length_load]; omega),
          length_load, List.getElem?_drop, show off + n + (k - off - n) = k by omega,
          List.getElem?_map, List.getElem?_range (by omega)]
        rfl
  · rw [List.getElem?_eq_none (by simp; omega), List.getElem?_eq_none]
    simp
    omega

/-- The array of an entry, along the chain that the invariant gives it. -/
theorem Integrity.arrays_eq {s : FsState} {chain : Nat → List Nat} (h : Integrity s chain)
    {i : Nat} {e : Dirent} (hi : s.ent i = some e) :
    arrays s i = (List.range e.fileSize).map (fileByte s.vol (chain i)) := by
  simp only [arrays, hi, contents, chainOf_eq h.table (h.entries i e hi).onChain]

-- The arrays of the entries other than `i` after an operation on `i`.
private theorem arrays_set_of_ne {s : FsState} {chain : Nat → List Nat} (h : Integrity s chain)
    {v : Volume} {i j : Nat} {e : Option Dirent} {l : List Nat}
    (h' : Integrity (s.set v i e) (update chain i l)) (hg : v.geom = s.vol.geom)
    (hsame : SameBytes s.vol v (chain j)) (hj : j ≠ i) : arrays (s.set v i e) j = arrays s j := by
  have hent : (s.set v i e).ent j = s.ent j := update_of_ne hj _ _
  cases hs : s.ent j with
  | none => simp only [arrays, hent, hs]
  | some f =>
    rw [h'.arrays_eq (hent.trans hs), h.arrays_eq hs]
    apply List.map_congr_left
    intro k hk
    have hlt := List.mem_range.mp hk
    have hsz := (h.entries j f hs).size
    rw [update_of_ne hj]
    exact hsame.fileByte_eq hg List.prefix_rfl (by omega)

/-- The C view of what the abstract machine returns. -/
def ArrayOut.toC (a : ArrayOut) : FileOut := ⟨toI32 a.count, a.bytes⟩

/-- The simulation that one operation establishes. -/
def Simulates (s : FsState) (op : FileOp) (s' : FsState) (o : FileOut) : Prop :=
  stepFile s op = .ok (s', o) ∧ Sound s' ∧ o = (stepArray (arrays s) op).2.toC ∧
    (stepArray (arrays s) op).2.count < 2 ^ 32 ∧ arrays s' = (stepArray (arrays s) op).1

private theorem write_simulates {s : FsState} (h : Sound s) {i off n : Nat} {d : ByteMem}
    (hl : (FileOp.write i d off n).Legal s) : ∃ s' o, Simulates s (.write i d off n) s' o := by
  obtain ⟨⟨chain, hint⟩, h1⟩ := h
  obtain ⟨e, he, hreg, hoff, hlim, hroom⟩ := hl
  change s.ent i = some e at he
  have hc := hint.entries i e he
  rw [chainOf_eq hint.table hc.onChain] at hroom
  obtain ⟨v, e', l, hew, hwr⟩ := ewrite_total hint.table h1 hc d hreg.1 hoff hlim hroom
  have hint' : Integrity (s.set v i (some e')) (update chain i l) :=
    hint.set hwr.wf hwr.geom (fun hn ↦ by cases hn) fun x hx ↦ by
      cases hx
      exact ⟨hwr.covered, fun hd ↦ hwr.firstClus (hint.dirs i e he (hwr.attr ▸ hd))⟩
  refine ⟨s.set v i (some e'), ⟨toI32 n, []⟩, ?_, ⟨⟨_, hint'⟩, hwr.reserved⟩, rfl, ?_, ?_⟩
  · simp only [stepFile, he, hew]
    rfl
  · show n < 2 ^ 32
    omega
  · funext j
    by_cases hj : j = i
    · subst hj
      have hent : (s.set v j (some e')).ent j = some e' := update_self ..
      simp only [stepArray, update_self]
      rw [hint'.arrays_eq hent, hint.arrays_eq he, update_self, hwr.size]
      exact overwrite_map hoff fun k hk ↦ hwr.bytes k (by rwa [hwr.size])
    · simp only [stepArray, update_of_ne hj]
      exact arrays_set_of_ne hint hint' hwr.geom (hwr.others j hj) hj

private theorem read_simulates {s : FsState} (h : Sound s) {i off n : Nat}
    (hl : (FileOp.read i off n).Legal s) : ∃ s' o, Simulates s (.read i off n) s' o := by
  obtain ⟨⟨chain, hint⟩, h1⟩ := h
  obtain ⟨e, he, hreg, hlim⟩ := hl
  change s.ent i = some e at he
  dsimp only at hlim
  have hc := hint.entries i e he
  obtain ⟨e', her, hse, hon⟩ := eread_total hint.table hc hreg.2 hlim
  have hint' : Integrity (s.set s.vol i (some e')) chain :=
    hint.setFields _ he (by rw [hse]) (by rw [hse]) hon (by rw [hse])
  have hsize : e'.fileSize = e.fileSize := by rw [hse]
  have harr : arrays s i = contents s.vol e := by simp only [arrays, he]
  have hlen : (contents s.vol e).length = e.fileSize := by simp [contents]
  refine ⟨s.set s.vol i (some e'), ⟨toI32 (min n (e.fileSize - off)),
    ((contents s.vol e).drop off).take n⟩, ?_, ⟨⟨_, hint'⟩, h1⟩, ?_, ?_, ?_⟩
  · simp only [stepFile, he, her]
    rfl
  · simp only [stepArray, ArrayOut.toC, harr, hlen]
  · show min n ((arrays s i).length - off) < 2 ^ 32
    omega
  · funext j
    show arrays (s.set s.vol i (some e')) j = arrays s j
    by_cases hj : j = i
    · subst hj
      have hent : (s.set s.vol j (some e')).ent j = some e' := update_self ..
      rw [hint'.arrays_eq hent, hint.arrays_eq he, hsize]
      rfl
    · have hent : (s.set s.vol i (some e')).ent j = s.ent j := update_of_ne hj _ _
      simp only [arrays, hent]
      rfl

private theorem trunc_simulates {s : FsState} (h : Sound s) {i : Nat}
    (hl : (FileOp.trunc i).Legal s) : ∃ s' o, Simulates s (.trunc i) s' o := by
  obtain ⟨⟨chain, hint⟩, h1⟩ := h
  obtain ⟨e, he, hreg, _⟩ := hl
  change s.ent i = some e at he
  have hc := hint.entries i e he
  obtain ⟨hg, hcard, hfat, hw⟩ := etrunc_wf hint.table hc.onChain
  have hint' : Integrity (s.set (etrunc s.vol e).1 i (some (etrunc s.vol e).2))
      (update chain i []) :=
    hint.set hw hg (fun hn ↦ by cases hn) fun x hx ↦ by
      cases hx
      exact ⟨⟨⟨rfl, fun hf ↦ absurd rfl hf⟩, Nat.zero_le _⟩, fun hd ↦ absurd hreg.2 hd⟩
  refine ⟨_, ⟨0, []⟩, ?_, ⟨⟨_, hint'⟩, ?_⟩, rfl, ?_, ?_⟩
  · simp only [stepFile, he]
  · show (etrunc s.vol e).1.fat 1 ≠ 0
    rw [hfat]
    have hn1 : 1 ∉ chain i := fun hm ↦ by
      have := (hint.table.forest.inDom i 1 hm).1
      omega
    simpa [hn1] using h1
  · show 0 < 2 ^ 32
    omega
  · funext j
    by_cases hj : j = i
    · subst hj
      have hent : (s.set (etrunc s.vol e).1 j (some (etrunc s.vol e).2)).ent j =
          some (etrunc s.vol e).2 := update_self ..
      simp only [stepArray, update_self]
      rw [hint'.arrays_eq hent]
      rfl
    · simp only [stepArray, update_of_ne hj]
      apply arrays_set_of_ne hint hint' hg _ hj
      intro c _ x _
      rw [hcard]

/-- Every legal operation on a sound state is simulated by the arrays. -/
theorem stepFile_simulates {s : FsState} (h : Sound s) {op : FileOp} (hl : op.Legal s) :
    ∃ s' o, Simulates s op s' o := by
  cases op with
  | write i d off n => exact write_simulates h hl
  | read i off n => exact read_simulates h hl
  | trunc i => exact trunc_simulates h hl

/-- A legal run returns what the arrays return and leaves what the arrays hold. -/
theorem runFile_simulates : ∀ (ops : List FileOp) {s : FsState}, Sound s → LegalRun s ops →
    ∃ s', runFile s ops = .ok (s', (runArray (arrays s) ops).2.map ArrayOut.toC) ∧ Sound s' ∧
      (∀ a ∈ (runArray (arrays s) ops).2, a.count < 2 ^ 32) ∧
      arrays s' = (runArray (arrays s) ops).1
  | [], s, hs, _ => ⟨s, rfl, hs, by simp [runArray], rfl⟩
  | op :: ops, s, hs, hl => by
    obtain ⟨s1, o, hstep, hs1, ho, hcount, harr⟩ := stepFile_simulates hs hl.1
    obtain ⟨s', hrun, hs', hcounts, harr'⟩ := runFile_simulates ops hs1 (hl.2 s1 o hstep)
    rw [harr] at hrun hcounts harr'
    refine ⟨s', ?_, hs', ?_, harr'⟩
    · simp only [runFile, hstep, runArray, List.map_cons]
      show (runFile s1 ops >>= _) = _
      rw [hrun, ho]
      rfl
    · intro a ha
      simp only [runArray, List.mem_cons] at ha
      rcases ha with rfl | ha
      · exact hcount
      · exact hcounts a ha

/-- The two states differ in the cursors of their entries at most. -/
def CursorVariant (s t : FsState) : Prop :=
  t.vol = s.vol ∧ ∀ i, (s.ent i = none ∧ t.ent i = none) ∨
    ∃ e f, s.ent i = some e ∧ t.ent i = some f ∧ SameEntry e f

private theorem arrays_cursorVariant {s t : FsState} (h : CursorVariant s t) :
    arrays t = arrays s := by
  funext i
  rcases h.2 i with ⟨hs, ht⟩ | ⟨e, f, hs, ht, hef⟩
  · simp only [arrays, hs, ht]
  · simp only [arrays, hs, ht, contents, chainOf, h.1]
    rw [hef]

/-- Every sequence of writes, reads and truncations of files returns what the same sequence
returns on byte arrays and leaves the same bytes; what it returns does not depend on where
the cursors stood. -/
theorem files_refine_arrays {s : FsState} {ops : List FileOp} (hs : Sound s)
    (hl : LegalRun s ops) :
    ∃ s' outs, runFile s ops = .ok (s', outs) ∧
      List.Forall₂ FileOut.Matches outs (runArray (arrays s) ops).2 ∧
      (∀ i, arrays s' i = (runArray (arrays s) ops).1 i) ∧
      (∀ i e, s'.ent i = some e → e.fileSize = ((runArray (arrays s) ops).1 i).length) ∧
      ∀ t, CursorVariant s t → Sound t → LegalRun t ops → ∃ t', runFile t ops = .ok (t', outs) := by
  obtain ⟨s', hrun, hs', hcounts, harr⟩ := runFile_simulates ops hs hl
  refine ⟨s', _, hrun, ?_, fun i ↦ congrFun harr i, fun i e he ↦ ?_, fun t hv ht hlt ↦ ?_⟩
  · rw [List.forall₂_map_left_iff, List.forall₂_same]
    intro a ha
    exact matches_toI32 a.bytes (hcounts a ha)
  · rw [← harr]
    simp [arrays, he, contents]
  · obtain ⟨t', hrun', _⟩ := runFile_simulates ops ht hlt
    rw [arrays_cursorVariant hv] at hrun'
    exact ⟨t', hrun'⟩

private theorem smallFs_sound : Sound smallFs := ⟨⟨_, smallFs_integrity⟩, by decide⟩

set_option maxRecDepth 4000 in
private theorem smallFs_legal :
    LegalRun smallFs [.write 1 (fun k ↦ UInt8.ofNat k) 0 3, .read 1 1 9] := by
  have hstep : ∃ r, stepFile smallFs (.write 1 (fun k ↦ UInt8.ofNat k) 0 3) = .ok r ∧
      ∃ e, r.1.ent 1 = some e ∧ e.attr = attrArchive := ⟨_, rfl, _, rfl, rfl⟩
  refine ⟨⟨smallFile, rfl, ⟨by decide, by decide⟩, by decide, by decide, by decide⟩,
    fun s' o hs ↦ ?_⟩
  obtain ⟨r, hr, e, he, ha⟩ := hstep
  rw [hr] at hs
  cases hs
  refine ⟨⟨e, he, ?_, show 1 + 9 < 2 ^ 32 by decide⟩, fun _ _ _ ↦ trivial⟩
  rw [Dirent.Regular, ha]
  decide

/-- Three bytes written to an empty file, and the read that returns the last two of them. -/
theorem files_refine_arrays_small : ∃ s' outs,
    runFile smallFs [.write 1 (fun k ↦ UInt8.ofNat k) 0 3, .read 1 1 9] = .ok (s', outs) ∧
      List.Forall₂ FileOut.Matches outs [⟨3, []⟩, ⟨2, [1, 2]⟩] := by
  obtain ⟨s', outs, hrun, hm, _⟩ := files_refine_arrays smallFs_sound smallFs_legal
  exact ⟨s', outs, hrun, hm⟩

end Xv6K210.Fs
