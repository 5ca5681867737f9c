import Xv6K210.Fs.Integrity
import Mathlib.Order.Interval.Finset.Nat

/-!
# The allocation table under any contents

Source `kernel/fs/fat32.c:225–251,654–664`. `alloc_clus` and `etrunc` are the two
functions that mark and clear table entries. Nothing is assumed here of the table: chains may
be cyclic, cross-linked or lead out of the data area.
-/

namespace Xv6K210.Fs

open Xv6K210.Base Function

/-! ### Truncation -/

/-- The clusters whose entry `write_fat` stores to: it returns early beyond the last one. -/
def writeFatStores (v : Volume) (cluster : Nat) : List Nat :=
  if v.geom.dataClusCnt + 1 < cluster then [] else [cluster]

/-- Complete executions of the loop of `etrunc` (`fat32.c:656–660`), with no bound on the
rounds: from a table and a cluster, the entries stored to in order, and the table left. -/
inductive EtruncRuns : Volume → Nat → List Nat → Volume → Prop
  | stop {v : Volume} {clus : Nat} (h : ¬ (2 ≤ clus ∧ clus < fat32Eoc)) :
      EtruncRuns v clus [] v
  | round {v v' : Volume} {clus : Nat} {l : List Nat} (h : 2 ≤ clus ∧ clus < fat32Eoc)
      (rest : EtruncRuns (freeClus v clus) (readFat v clus) l v') :
      EtruncRuns v clus (writeFatStores v clus ++ l) v'

/-- The data clusters reached by following the table from `first`, up to the first value
that is not the number of a data cluster. -/
inductive Reached (v : Volume) (first : Nat) : Nat → Prop
  | first (h : v.geom.InRange first) : Reached v first first
  | next {c : Nat} (h : Reached v first c) (hn : v.geom.InRange (v.fat c)) :
      Reached v first (v.fat c)

/-- Nothing is reached from a value that is not the number of a data cluster. -/
theorem not_reached {v : Volume} {first : Nat} (h : ¬ v.geom.InRange first) (c : Nat) :
    ¬ Reached v first c := by
  intro hc
  induction hc with
  | first hf => exact h hf
  | next _ _ ih => exact ih

/-- Zero is not the number of a data cluster. -/
theorem Geom.not_inRange_zero (g : Geom) : ¬ g.InRange 0 := fun h ↦ absurd h.1 (by decide)

private theorem inRange_of_round {v : Volume} {clus : Nat} (h : 2 ≤ clus ∧ clus < fat32Eoc)
    (hin : ¬ v.geom.dataClusCnt + 1 < clus) : v.geom.InRange clus :=
  ⟨h.1, Nat.le_of_not_lt hin⟩

/-- Beyond the data area a round reads zero and stores nothing. -/
theorem freeClus_outside {v : Volume} {clus : Nat} (h : clus < fat32Eoc)
    (hout : v.geom.dataClusCnt + 1 < clus) :
    freeClus v clus = v ∧ readFat v clus = 0 ∧ writeFatStores v clus = [] := by
  refine ⟨?_, ?_, ?_⟩
  · rw [freeClus, writeFat, if_pos hout]
  · rw [readFat, if_neg (Nat.not_le.mpr h), if_pos hout]
  · rw [writeFatStores, if_pos hout]

/-- On a data cluster a round reads its entry and clears it. -/
theorem freeClus_inside {v : Volume} {clus : Nat} (h : v.geom.InRange clus) :
    freeClus v clus = { v with fat := update v.fat clus 0 } ∧
      readFat v clus = v.fat clus ∧ writeFatStores v clus = [clus] := by
  refine ⟨writeFat_of_inRange h, readFat_of_inRange h, ?_⟩
  rw [writeFatStores, if_neg (Nat.not_lt.mpr h.2)]

-- A path that comes back to the cleared entry reads zero there and ends, and what it would
-- have reached through that entry is what the cleared entry led to in the first place.
private theorem reached_iff {v : Volume} {clus : Nat} (h : v.geom.InRange clus) (c : Nat) :
    Reached v clus c ↔
      c = clus ∨ Reached { v with fat := update v.fat clus 0 } (v.fat clus) c := by
  constructor
  · intro hc
    induction hc with
    | first _ => exact Or.inl rfl
    | @next d _ hn ih =>
      by_cases hd : d = clus
      · rw [hd] at hn ⊢
        exact Or.inr (.first hn)
      · have hr := ih.resolve_left hd
        have hu : update v.fat clus 0 d = v.fat d := update_of_ne hd _ _
        have hstep := Reached.next hr (show v.geom.InRange (update v.fat clus 0 d) by
          rw [hu]; exact hn)
        simp only [hu] at hstep
        exact Or.inr hstep
  · rintro (rfl | hc)
    · exact .first h
    · induction hc with
      | first hf => exact .next (.first h) hf
      | @next d _ hn ih =>
        simp only at hn ⊢
        by_cases hd : d = clus
        · rw [hd, update_self] at hn
          exact absurd hn v.geom.not_inRange_zero
        · rw [update_of_ne hd] at hn ⊢
          exact .next ih hn

/-- The entries that a complete execution stores to are those of the clusters reached. -/
theorem EtruncRuns.mem_iff {v v' : Volume} {clus : Nat} {l : List Nat}
    (h : EtruncRuns v clus l v') (c : Nat) : c ∈ l ↔ Reached v clus c := by
  induction h with
  | @stop v clus hs =>
    have hn : ¬ v.geom.InRange clus := fun hr ↦ hs ⟨hr.1, hr.lt_eoc⟩
    exact iff_of_false List.not_mem_nil (not_reached hn c)
  | @round v v' clus l hs _ ih =>
    by_cases hout : v.geom.dataClusCnt + 1 < clus
    · obtain ⟨hfree, hread, hstore⟩ := freeClus_outside hs.2 hout
      have hn : ¬ v.geom.InRange clus := fun hr ↦ absurd hr.2 (Nat.not_le.mpr hout)
      rw [hfree, hread] at ih
      rw [hstore, List.nil_append, ih]
      exact iff_of_false (not_reached v.geom.not_inRange_zero c) (not_reached hn c)
    · have hin := inRange_of_round hs hout
      obtain ⟨hfree, hread, hstore⟩ := freeClus_inside hin
      rw [hfree, hread] at ih
      rw [hstore, List.singleton_append, List.mem_cons, ih, reached_iff hin]

/-- A complete execution clears the entries it stores to and changes nothing else. -/
theorem EtruncRuns.volume_eq {v v' : Volume} {clus : Nat} {l : List Nat}
    (h : EtruncRuns v clus l v') :
    v' = { v with fat := fun c ↦ if c ∈ l then 0 else v.fat c } := by
  induction h with
  | stop _ => simp
  | @round v v' clus l hs _ ih =>
    by_cases hout : v.geom.dataClusCnt + 1 < clus
    · obtain ⟨hfree, _, hstore⟩ := freeClus_outside hs.2 hout
      rw [ih, hfree, hstore, List.nil_append]
    · obtain ⟨hfree, _, hstore⟩ := freeClus_inside (inRange_of_round hs hout)
      rw [ih, hfree, hstore]
      congr 1
      funext c
      simp only [List.singleton_append, List.mem_cons, update_apply]
      by_cases hc : c = clus
      · simp [hc]
      · simp [hc]

/-- The data clusters with a nonzero entry: what is left to free. -/
def inUse (v : Volume) : Finset Nat :=
  (Finset.Icc 2 (v.geom.dataClusCnt + 1)).filter fun c ↦ v.fat c ≠ 0

/-- There are no more clusters in use than data clusters. -/
theorem card_inUse_le (v : Volume) : (inUse v).card ≤ v.geom.dataClusCnt := by
  refine (Finset.card_filter_le _ _).trans ?_
  rw [Nat.card_Icc]
  omega

private theorem card_inUse_clear {v : Volume} {clus : Nat} (h : v.geom.InRange clus)
    (hu : v.fat clus ≠ 0) :
    (inUse { v with fat := update v.fat clus 0 }).card < (inUse v).card := by
  apply Finset.card_lt_card
  rw [Finset.ssubset_iff_of_subset]
  · refine ⟨clus, ?_, ?_⟩
    · simp [inUse, h.1, h.2, hu]
    · simp [inUse]
  · intro c hc
    simp only [inUse, Finset.mem_filter, update_apply] at hc ⊢
    by_cases hcc : c = clus
    · simp [hcc] at hc
    · simpa [hcc] using hc

private theorem etruncLoop_stop {v : Volume} {clus : Nat} (fuel : Nat)
    (h : ¬ (2 ≤ clus ∧ clus < fat32Eoc)) : etruncLoop fuel v clus = v := by
  cases fuel with
  | zero => rfl
  | succ fuel => rw [etruncLoop, if_neg h]

-- Each round clears an entry that was in use, or reads zero and is the last but one.
private theorem etruncLoop_runs : ∀ (fuel : Nat) (v : Volume) (clus : Nat),
    (inUse v).card + 2 ≤ fuel → ∃ l, EtruncRuns v clus l (etruncLoop fuel v clus)
  | 0, v, clus, hf => absurd hf (by omega)
  | fuel + 1, v, clus, hf => by
    by_cases hs : 2 ≤ clus ∧ clus < fat32Eoc
    · rw [etruncLoop, if_pos hs]
      by_cases hz : readFat v clus = 0
      · have hend : ¬ (2 ≤ readFat v clus ∧ readFat v clus < fat32Eoc) := by
          rw [hz]
          exact fun h ↦ absurd h.1 (by decide)
        rw [etruncLoop_stop fuel hend]
        exact ⟨_, .round hs (.stop hend)⟩
      · have hin : v.geom.InRange clus := by
          apply inRange_of_round hs
          intro hout
          exact hz (freeClus_outside hs.2 hout).2.1
        obtain ⟨hfree, hread, _⟩ := freeClus_inside hin
        have hlt : (inUse (freeClus v clus)).card < (inUse v).card := by
          rw [hfree]
          exact card_inUse_clear hin (by rwa [hread] at hz)
        obtain ⟨l, hl⟩ := etruncLoop_runs fuel (freeClus v clus) (readFat v clus) (by omega)
        exact ⟨_, .round hs hl⟩
    · rw [etruncLoop_stop (fuel + 1) hs]
      exact ⟨[], .stop hs⟩

/-- `etrunc` comes to an end on any table, and the entries it clears are exactly those of the
data clusters reached from the first cluster. Nothing else on the volume changes. -/
theorem etrunc_clears_reached (v : Volume) (e : Dirent) :
    ∃ l, EtruncRuns v e.firstClus l (etrunc v e).1 ∧
      (∀ c, c ∈ l ↔ Reached v e.firstClus c) ∧
      (∀ c, Reached v e.firstClus c → (etrunc v e).1.fat c = 0) ∧
      (∀ c, ¬ Reached v e.firstClus c → (etrunc v e).1.fat c = v.fat c) ∧
      (etrunc v e).1.geom = v.geom ∧ (etrunc v e).1.card = v.card := by
  have hfuel : (inUse v).card + 2 ≤ v.geom.dataClusCnt + 2 :=
    Nat.add_le_add_right (card_inUse_le v) 2
  obtain ⟨l, hl⟩ := etruncLoop_runs _ v e.firstClus hfuel
  have hv : (etrunc v e).1 = { v with fat := fun c ↦ if c ∈ l then 0 else v.fat c } :=
    hl.volume_eq
  refine ⟨l, hl, hl.mem_iff, ?_, ?_, ?_, ?_⟩
  · intro c hc
    rw [hv]
    exact if_pos ((hl.mem_iff c).mpr hc)
  · intro c hc
    rw [hv]
    exact if_neg fun hm ↦ hc ((hl.mem_iff c).mp hm)
  · rw [hv]
  · rw [hv]

/-! ### Allocation -/

/-- What a caller of `alloc_clus` relies on: the panic of a full volume, or a data cluster whose
entry was free and is now an end mark, all other entries kept and only its bytes zeroed. -/
def AllocInside (v : Volume) : Prop :=
  match allocClus v with
  | .error p => p = .noClusters
  | .ok (v', c) =>
    v.geom.InRange c ∧ v.fat c = 0 ∧ v'.geom = v.geom ∧
      v'.fat = update v.fat c (fat32Eoc + 7) ∧
      ∀ x, v'.card x =
        if v.geom.clusAddr c ≤ x ∧ x < v.geom.clusAddr c + v.geom.bytsPerClus then 0
        else v.card x

private theorem allocInside_of_scan {v : Volume} {c : Nat} (h : allocScan v = some c) :
    AllocInside v ↔ v.geom.InRange c := by
  have ha : allocClus v =
      .ok (zeroClus { v with fat := update v.fat c (fat32Eoc + 7) } c, c) := by
    rw [allocClus, h]
  rw [AllocInside, ha]
  refine ⟨And.left, fun hc ↦ ⟨hc, (allocScan_eq_some h).1, rfl, rfl, ?_⟩⟩
  intro x
  exact zeroClus_card (v := { v with fat := update v.fat c (fat32Eoc + 7) }) hc x

/-- The scan runs over all entries of the table, the two reserved ones and those behind the last
cluster included. So `alloc_clus` is right exactly when no entry at all is zero, or when the
first two are not and some data cluster is free. -/
theorem allocInside_iff (v : Volume) :
    AllocInside v ↔ (∀ d < v.geom.fatSz * entPerSec, v.fat d ≠ 0) ∨
      (v.fat 0 ≠ 0 ∧ v.fat 1 ≠ 0 ∧ ∃ c, v.geom.InRange c ∧ v.fat c = 0) := by
  cases hs : allocScan v with
  | none =>
    have hok : AllocInside v := by simp [AllocInside, allocClus, hs]
    exact iff_of_true hok (Or.inl (allocScan_eq_none hs))
  | some c =>
    obtain ⟨hz, hlt, hleast⟩ := allocScan_eq_some hs
    rw [allocInside_of_scan hs]
    constructor
    · intro hc
      have h2 := hc.1
      exact Or.inr ⟨hleast 0 (by omega), hleast 1 (by omega), c, hc, hz⟩
    · rintro (hfull | ⟨h0, h1, d, hd, hzd⟩)
      · exact absurd hz (hfull c hlt)
      · -- the entry found is none of the first two and not behind the free data cluster
        have hc0 : c ≠ 0 := fun h ↦ h0 (h ▸ hz)
        have hc1 : c ≠ 1 := fun h ↦ h1 (h ▸ hz)
        have hcd : ¬ d < c := fun h ↦ hleast d h hzd
        have hd2 := hd.2
        exact ⟨by omega, by omega⟩

/-- The small volume with all its data clusters in use. Its table has entries to spare. -/
def fullVolume : Volume where
  geom := smallGeom
  fat c := if c ≤ 9 then fat32Eoc + 7 else 0
  card _ := 0

/-- On a full volume `alloc_clus` hands out a cluster behind the data area. -/
theorem not_allocInside_full : ¬ AllocInside fullVolume := by
  have hs : allocScan fullVolume = some 10 := by decide +kernel
  rw [allocInside_of_scan hs]
  decide

end Xv6K210.Fs
