import Xv6K210.Fs.Dir
import Xv6K210.Base.Runs
import Mathlib.Data.List.Perm.Subperm

/-!
# Integrity of the cluster chains

Source `kernel/fs/fat32.c:225–378,494–716`. A state is a volume and its live
entries. Creation, growth, writing, truncation and deferred deletion keep the chains of
the entries a forest in the allocation table, and every cached cursor on its own chain.
-/

namespace Xv6K210.Fs

open Xv6K210.Base Function

/-! ### How one operation may change the table -/

/-- `v'` is `v` after allocations and links: no used entry became free. -/
structure Later (v v' : Volume) : Prop where
  geom : v'.geom = v.geom
  used : v.fat 0 ≠ 0 → ∀ c, v.fat c ≠ 0 → v'.fat c ≠ 0

/-- The clusters taken between `v` and `v'` are data clusters. -/
def FreshInRange (v v' : Volume) : Prop := ∀ c, v.fat c = 0 → v'.fat c ≠ 0 → v.geom.InRange c

/-- The table is well formed and its chains are those of the family `chain`. -/
structure FatWf (v : Volume) (chain : Nat → List Nat) : Prop where
  forest : Forest v.fat EocMark 0 v.geom.InRange chain
  reserved : v.fat 0 ≠ 0

/-- Nothing changes between a volume and itself. -/
theorem Later.refl (v : Volume) : Later v v := ⟨rfl, fun _ _ h ↦ h⟩

/-- Changes compose. -/
theorem Later.trans {v v' v'' : Volume} (h : Later v v') (h' : Later v' v'') : Later v v'' where
  geom := h'.geom.trans h.geom
  used h0 c hc := h'.used (h.used h0 0 h0) c (h.used h0 c hc)

/-- The clusters that the first part of an operation takes are among all it takes. -/
theorem FreshInRange.left {v v' v'' : Volume} (h : FreshInRange v v'') (h0 : v.fat 0 ≠ 0)
    (h1 : Later v v') (h2 : Later v' v'') : FreshInRange v v' :=
  fun c hc hc' ↦ h c hc (h2.used (h1.used h0 0 h0) c hc')

/-- The clusters that the second part of an operation takes are among all it takes. -/
theorem FreshInRange.right {v v' v'' : Volume} (h : FreshInRange v v'') (h0 : v.fat 0 ≠ 0)
    (h1 : Later v v') : FreshInRange v' v'' := by
  intro c hc hc'
  rw [h1.geom]
  apply h c _ hc'
  by_contra hn
  exact h1.used h0 c hn hc

/-- Every chain of a well-formed table is a chain of data clusters. -/
theorem FatWf.isChain {v : Volume} {chain : Nat → List Nat} (h : FatWf v chain) (i : Nat) :
    IsChain v (chain i) := ⟨h.forest.linked i, h.forest.inDom i⟩

private theorem not_eocMark_zero : ¬ EocMark 0 := fun h ↦ by
  have := h.1
  simp only [fat32Eoc] at this
  omega

private theorem not_inRange_zero (g : Geom) : ¬ g.InRange 0 := fun h ↦ by
  have := h.1
  omega

private theorem eocMark_new : EocMark (fat32Eoc + 7) := by
  constructor <;> simp [fat32Eoc]

/-- A cluster of a chain is in use. -/
theorem FatWf.used {v : Volume} {chain : Nat → List Nat} (h : FatWf v chain) {i c : Nat}
    (hc : c ∈ chain i) : v.fat c ≠ 0 :=
  h.forest.used not_eocMark_zero (not_inRange_zero _) hc

/-- `alloc_clus` takes a free entry and marks it as the end of a chain. -/
theorem allocClus_fat {v v' : Volume} {c : Nat} (h : allocClus v = .ok (v', c)) :
    v'.geom = v.geom ∧ v'.fat = update v.fat c (fat32Eoc + 7) ∧ v.fat c = 0 := by
  have ha := allocClus_eq_ok h
  rw [ha.2]
  exact ⟨rfl, rfl, (allocScan_eq_some ha.1).1⟩

/-- `alloc_clus` frees nothing. -/
theorem allocClus_later {v v' : Volume} {c : Nat} (h : allocClus v = .ok (v', c)) :
    Later v v' := by
  obtain ⟨hg, hf, hz⟩ := allocClus_fat h
  refine ⟨hg, fun _ d hd ↦ ?_⟩
  have hdc : d ≠ c := fun he ↦ hd (he ▸ hz)
  rwa [hf, update_of_ne hdc]

/-- Linking a cluster frees nothing. -/
theorem writeFat_later (v : Volume) (c : Nat) {x : Nat} (hx : x ≠ 0) :
    Later v (writeFat v c x) := by
  refine ⟨writeFat_geom v c x, fun _ d hd ↦ ?_⟩
  by_cases hdc : d = c
  · subst hdc
    unfold writeFat
    split
    · exact hd
    · simpa using hx
  · rwa [writeFat_fat_of_ne v hdc]

/-- A link behind a fresh cluster, as `reloc_clus` makes it, frees nothing. -/
theorem allocLink_later {v v' : Volume} {c : Nat} (z : Nat) (h : allocClus v = .ok (v', c)) :
    Later v (writeFat v' z c) := by
  by_cases hc : c = 0
  · refine ⟨?_, fun h0 ↦ absurd (hc ▸ (allocClus_fat h).2.2) h0⟩
    rw [writeFat_geom, (allocClus_fat h).1]
  · exact (allocClus_later h).trans (writeFat_later v' z hc)

private theorem relocForward_later (alloc : Bool) : ∀ (k : Nat) (v : Volume) (e : Dirent)
    {v' : Volume} {e' : Dirent} {b : Bool}, relocForward alloc k v e = .ok (v', e', b) →
    Later v v'
  | 0, v, e, v', e', b, h => by
    simp only [relocForward, Except.ok.injEq, Prod.mk.injEq] at h
    rw [← h.1]
    exact Later.refl v
  | k + 1, v, e, v', e', b, h => by
    rw [relocForward] at h
    split at h
    · split at h
      · split at h
        · cases h
        · next ha => exact (allocLink_later _ ha).trans (relocForward_later alloc k _ _ h)
      · simp only [Except.ok.injEq, Prod.mk.injEq] at h
        rw [← h.1]
        exact Later.refl v
    · exact relocForward_later alloc k _ _ h

/-- `reloc_clus` frees nothing. -/
theorem relocClus_later {v v' : Volume} {e e' : Dirent} {off : Nat} {alloc : Bool} {r : Int}
    (h : relocClus v e off alloc = .ok (v', e', r)) : Later v v' := by
  unfold relocClus at h
  dsimp only at h
  split at h
  · cases h
  · next hf =>
    simp only [Except.ok.injEq, Prod.mk.injEq] at h
    rw [← h.1]
    exact relocForward_later alloc _ v e hf
  · next hf =>
    have hl := relocForward_later alloc _ v e hf
    split at h
    · split at h
      · cases h
      · simp only [Except.ok.injEq, Prod.mk.injEq] at h
        rwa [← h.1]
    · simp only [Except.ok.injEq, Prod.mk.injEq] at h
      rwa [← h.1]

/-- A transfer frees nothing. -/
theorem rwClus_later {v v' : Volume} {c : Nat} {x : Xfer} {k off n r : Nat} {out : List UInt8}
    (h : rwClus v c x k off n = .ok (v', r, out)) : Later v v' := by
  have hk := rwClus_keeps h
  exact ⟨hk.2, fun _ _ hc ↦ by rwa [hk.1]⟩

/-- A transfer keeps the table well formed. -/
theorem FatWf.rwClus {v v' : Volume} {chain : Nat → List Nat} (hw : FatWf v chain) {c : Nat}
    {x : Xfer} {k off n r : Nat} {out : List UInt8}
    (h : rwClus v c x k off n = .ok (v', r, out)) : FatWf v' chain := by
  have hk := rwClus_keeps h
  constructor
  · rw [hk.1, hk.2]
    exact hw.forest
  · rw [hk.1]
    exact hw.reserved

/-! ### Growing one chain -/

/-- A fresh cluster becomes the chain of an entry that had none. -/
theorem FatWf.start {v v' : Volume} {chain : Nat → List Nat} (hw : FatWf v chain) {i c : Nat}
    (hi : chain i = []) (ha : allocClus v = .ok (v', c)) (hc : v.geom.InRange c) :
    FatWf v' (update chain i [c]) := by
  obtain ⟨hg, hf, hz⟩ := allocClus_fat ha
  constructor
  · rw [hf, hg]
    exact hw.forest.start not_eocMark_zero (not_inRange_zero _) hi hc hz eocMark_new
  · exact (allocClus_later ha).used hw.reserved 0 hw.reserved

/-- A fresh cluster linked behind the last one extends the chain. -/
theorem FatWf.extend {v v' : Volume} {chain : Nat → List Nat} (hw : FatWf v chain)
    {i z c : Nat} (hz : (chain i).getLast? = some z) (ha : allocClus v = .ok (v', c))
    (hc : v.geom.InRange c) :
    FatWf (writeFat v' z c) (update chain i (chain i ++ [c])) := by
  obtain ⟨hg, hf, hfree⟩ := allocClus_fat ha
  have hzr : v'.geom.InRange z := by
    rw [hg]
    exact hw.forest.inDom i z (List.mem_of_getLast? hz)
  constructor
  · rw [writeFat_of_inRange hzr, hf, hg]
    exact hw.forest.extend not_eocMark_zero (not_inRange_zero _) hz hc hfree eocMark_new
  · exact (allocLink_later z ha).used hw.reserved 0 hw.reserved

/-- `reloc_clus` that may allocate extends the chain up to the cluster of the offset and
leaves the cursor there. -/
theorem relocClus_alloc {v v' : Volume} {chain : Nat → List Nat} (hw : FatWf v chain)
    {e e' : Dirent} {i off : Nat} {r : Int} (he : OnChain e (chain i)) (hf : e.firstClus ≠ 0)
    (h : relocClus v e off true = .ok (v', e', r)) (hin : FreshInRange v v') :
    ∃ l c, FatWf v' (update chain i l) ∧ OnChain e' l ∧
      l.length = max (chain i).length (off / v.geom.bytsPerClus + 1) ∧
      l[off / v.geom.bytsPerClus]? = some c ∧
      e' = { e with curClus := c, clusCnt := off / v.geom.bytsPerClus } ∧
      r = (off % v.geom.bytsPerClus : Nat) := by
  -- the induction is on the number of clusters that are missing
  generalize hd : off / v.geom.bytsPerClus + 1 - (chain i).length = d
  induction d generalizing v chain e with
  | zero =>
    obtain ⟨c, hc⟩ : ∃ c, (chain i)[off / v.geom.bytsPerClus]? = some c :=
      ⟨_, List.getElem?_eq_getElem (by omega)⟩
    rw [relocClus_inside (hw.isChain i) he hf true hc] at h
    simp only [Except.ok.injEq, Prod.mk.injEq] at h
    obtain ⟨rfl, rfl, rfl⟩ := h
    refine ⟨chain i, c, ?_, he.move hc, by omega, hc, rfl, rfl⟩
    rwa [update_eq_self]
  | succ d ih =>
    have hne : chain i ≠ [] := by
      intro hnil
      have := he.getElem?_zero hf
      simp [hnil] at this
    have hz : (chain i).getLast? = some ((chain i).getLast hne) := List.getLast?_eq_some_getLast hne
    rw [relocClus_grow (hw.isChain i) he hf hz (by omega)] at h
    split at h
    · cases h
    · next v1 c1 ha =>
      have hl := allocLink_later ((chain i).getLast hne) ha
      have hfree := (allocClus_fat ha).2.2
      have hused : (writeFat v1 ((chain i).getLast hne) c1).fat c1 ≠ 0 := by
        have hcz : c1 ≠ (chain i).getLast hne := by
          intro hx
          exact hw.used (List.getLast_mem hne) (hx ▸ hfree)
        rw [writeFat_fat_of_ne _ hcz, (allocClus_fat ha).2.1, update_self]
        simp
      have hr1 : v.geom.InRange c1 :=
        hin.left hw.reserved hl (relocClus_later h) c1 hfree hused
      have hw1 := hw.extend hz ha hr1
      have hgeom := hl.geom
      have he1 : OnChain { e with curClus := c1, clusCnt := (chain i).length }
          (update chain i (chain i ++ [c1]) i) := by
        rw [update_self]
        constructor
        · rw [List.head?_append_of_ne_nil _ hne]
          exact he.head
        · intro _
          simp
      have hd1 : off / (writeFat v1 ((chain i).getLast hne) c1).geom.bytsPerClus + 1 -
          (update chain i (chain i ++ [c1]) i).length = d := by
        rw [hgeom, update_self, List.length_append, List.length_singleton]
        omega
      obtain ⟨l, c, hwf, hon, hlen, hc, hee, hrr⟩ :=
        ih hw1 he1 hf h (hin.right hw.reserved hl) hd1
      rw [update_self, List.length_append, List.length_singleton] at hlen
      rw [hgeom] at hlen hc hee hrr
      rw [update_idem] at hwf
      exact ⟨l, c, hwf, hon, by omega, hc, hee, hrr⟩

/-- `e'` is `e` with the cursor moved. -/
def SameEntry (e e' : Dirent) : Prop := e' = { e with curClus := e'.curClus, clusCnt := e'.clusCnt }

/-- Cursor moves compose. -/
theorem SameEntry.trans {e e' e'' : Dirent} (h : SameEntry e e') (h' : SameEntry e' e'') :
    SameEntry e e'' := by
  unfold SameEntry at *
  rw [h'] at ⊢
  rw [h]

/-- A place of the cursor does not matter to what stays the same. -/
theorem SameEntry.seek {e e' : Dirent} (c n : Nat)
    (h : SameEntry { e with curClus := c, clusCnt := n } e') : SameEntry e e' := by
  have h0 : SameEntry e { e with curClus := c, clusCnt := n } := rfl
  exact h0.trans h

/-- `v'` and `e'` are `v` and `e` after the chain of entry `i` grew to `l`. -/
structure Extended (v : Volume) (chain : Nat → List Nat) (i : Nat) (e : Dirent)
    (v' : Volume) (e' : Dirent) (l : List Nat) : Prop where
  wf : FatWf v' (update chain i l)
  onChain : OnChain e' l
  grown : (chain i).length ≤ l.length
  geom : v'.geom = v.geom
  entry : SameEntry e e'

/-- Growths of one chain compose. -/
theorem Extended.trans {v v' v'' : Volume} {chain : Nat → List Nat} {i : Nat}
    {e e' e'' : Dirent} {l l' : List Nat} (h : Extended v chain i e v' e' l)
    (h' : Extended v' (update chain i l) i e' v'' e'' l') :
    Extended v chain i e v'' e'' l' where
  wf := by
    have := h'.wf
    rwa [update_idem] at this
  onChain := h'.onChain
  grown := by
    have := h'.grown
    rw [update_self] at this
    exact h.grown.trans this
  geom := h'.geom.trans h.geom
  entry := h.entry.trans h'.entry

/-- A transfer after a growth. -/
theorem Extended.rwClus {v v' v'' : Volume} {chain : Nat → List Nat} {i : Nat} {e e' : Dirent}
    {l : List Nat} (h : Extended v chain i e v' e' l) {c : Nat} {x : Xfer} {k off n r : Nat}
    {out : List UInt8} (hx : rwClus v' c x k off n = .ok (v'', r, out)) :
    Extended v chain i e v'' e' l :=
  ⟨h.wf.rwClus hx, h.onChain, h.grown, (rwClus_later hx).geom.trans h.geom, h.entry⟩

/-- `reloc_clus` that may allocate, as a growth that covers the cluster of the offset. -/
theorem relocClus_extended {v v' : Volume} {chain : Nat → List Nat} (hw : FatWf v chain)
    {e e' : Dirent} {i off : Nat} {r : Int} (he : OnChain e (chain i)) (hf : e.firstClus ≠ 0)
    (h : relocClus v e off true = .ok (v', e', r)) (hin : FreshInRange v v') :
    ∃ l, Extended v chain i e v' e' l ∧ off / v.geom.bytsPerClus < l.length := by
  obtain ⟨l, c, hwf, hon, hlen, _, hee, _⟩ := relocClus_alloc hw he hf h hin
  refine ⟨l, ⟨hwf, hon, by omega, (relocClus_later h).geom, ?_⟩, by omega⟩
  rw [hee]
  rfl

/-! ### Writing -/

private theorem ewriteLoop_later (x : Xfer) (n : Nat) : ∀ (fuel : Nat)
    (v : Volume) (e : Dirent) (off tot : Nat) {v' : Volume} {e' : Dirent} {off' tot' : Nat},
    ewriteLoop x n fuel v e off tot = .ok (v', e', off', tot') → Later v v'
  | 0, v, e, off, tot, v', e', off', tot', h => by
    simp only [ewriteLoop, Except.ok.injEq, Prod.mk.injEq] at h
    rw [← h.1]
    exact Later.refl v
  | fuel + 1, v, e, off, tot, v', e', off', tot', h => by
    rw [ewriteLoop] at h
    split at h
    · split at h
      · cases h
      · next hr =>
        dsimp only at h
        split at h
        · cases h
        · next hx =>
          have hl := (relocClus_later hr).trans (rwClus_later hx)
          split at h
          · simp only [Except.ok.injEq, Prod.mk.injEq] at h
            rwa [← h.1]
          · exact hl.trans (ewriteLoop_later x n fuel _ _ _ _ h)
    · simp only [Except.ok.injEq, Prod.mk.injEq] at h
      rw [← h.1]
      exact Later.refl v

private theorem round_end_le {g : Geom} {off m k : Nat} (hk : off / g.bytsPerClus < k)
    (hm : m ≤ g.bytsPerClus - off % g.bytsPerClus) : off + m ≤ k * g.bytsPerClus := by
  have hpos := g.bytsPerClus_pos
  have hdm := Nat.div_add_mod' off g.bytsPerClus
  have hlt := Nat.mod_lt off hpos
  have hle := Nat.mul_le_mul_right g.bytsPerClus (Nat.succ_le_of_lt hk)
  rw [Nat.succ_mul] at hle
  omega

private theorem ewriteLoop_extended (x : Xfer) (n : Nat) : ∀ (fuel : Nat)
    {v v' : Volume} {chain : Nat → List Nat} {e e' : Dirent} {i off tot off' tot' : Nat},
    FatWf v chain → OnChain e (chain i) → e.firstClus ≠ 0 →
    off ≤ (chain i).length * v.geom.bytsPerClus →
    ewriteLoop x n fuel v e off tot = .ok (v', e', off', tot') → FreshInRange v v' →
    ∃ l, Extended v chain i e v' e' l ∧ off' ≤ l.length * v.geom.bytsPerClus
  | 0, v, v', chain, e, e', i, off, tot, off', tot', hw, he, hf, hoff, h, hin => by
    simp only [ewriteLoop, Except.ok.injEq, Prod.mk.injEq] at h
    obtain ⟨rfl, rfl, rfl, rfl⟩ := h
    exact ⟨chain i, ⟨by rwa [update_eq_self], he, Nat.le_refl _, rfl, rfl⟩, hoff⟩
  | fuel + 1, v, v', chain, e, e', i, off, tot, off', tot', hw, he, hf, hoff, h, hin => by
    rw [ewriteLoop] at h
    split at h
    · split at h
      · cases h
      · next v1 e1 r hr =>
        dsimp only at h
        split at h
        · cases h
        · next v2 q out hx =>
          have hl1 := relocClus_later hr
          have hl2 := rwClus_later hx
          have hrest : Later v2 v' := by
            split at h
            · simp only [Except.ok.injEq, Prod.mk.injEq] at h
              rw [← h.1]
              exact Later.refl v2
            · exact ewriteLoop_later x n fuel _ _ _ _ h
          obtain ⟨l, hext, hlt⟩ := relocClus_extended hw he hf hr
            (hin.left hw.reserved hl1 (hl2.trans hrest))
          have hext2 := hext.rwClus hx
          split at h
          · simp only [Except.ok.injEq, Prod.mk.injEq] at h
            obtain ⟨rfl, rfl, rfl, rfl⟩ := h
            exact ⟨l, hext2, hoff.trans (Nat.mul_le_mul_right _ hext2.grown)⟩
          · have hm : min (v.geom.bytsPerClus - off % v.geom.bytsPerClus) (n - tot) ≤
                v.geom.bytsPerClus - off % v.geom.bytsPerClus := Nat.min_le_left _ _
            have hend := round_end_le hlt hm
            have hfc : e1.firstClus ≠ 0 := by
              rw [hext.entry]
              exact hf
            obtain ⟨l', hext', hoff'⟩ := ewriteLoop_extended x n fuel (i := i) hext2.wf
              (by rw [update_self]; exact hext2.onChain) hfc
              (by
                rw [update_self, hext2.geom]
                exact (Nat.mod_le _ _).trans hend) h
              (hin.right hw.reserved (hl1.trans hl2))
            rw [hext2.geom] at hoff'
            exact ⟨l', hext2.trans hext', hoff'⟩
    · simp only [Except.ok.injEq, Prod.mk.injEq] at h
      obtain ⟨rfl, rfl, rfl, rfl⟩ := h
      exact ⟨chain i, ⟨by rwa [update_eq_self], he, Nat.le_refl _, rfl, rfl⟩, hoff⟩

private theorem ewriteFirst_cases {v v' : Volume} {e e' : Dirent}
    (h : ewriteFirst v e = .ok (v', e')) :
    (e.firstClus ≠ 0 ∧ v' = v ∧ e' = e) ∨
      ∃ c, e.firstClus = 0 ∧ allocClus v = .ok (v', c) ∧
        e' = { e with firstClus := c, curClus := c, clusCnt := 0, dirty := true } := by
  unfold ewriteFirst at h
  split at h
  · next h0 =>
    split at h
    · cases h
    · next v1 c ha =>
      simp only [Except.ok.injEq, Prod.mk.injEq] at h
      obtain ⟨rfl, rfl⟩ := h
      exact .inr ⟨c, h0, ha, rfl⟩
  · next h0 =>
    simp only [Except.ok.injEq, Prod.mk.injEq] at h
    exact .inl ⟨h0, h.1.symm, h.2.symm⟩

/-- An entry on its chain, with its size covered by the chain. -/
structure Covered (g : Geom) (e : Dirent) (l : List Nat) : Prop where
  onChain : OnChain e l
  size : e.fileSize ≤ l.length * g.bytsPerClus

/-- `ewrite`, complete or cut short by a fault in the source buffer, extends the chain of
the entry and covers its new size. -/
theorem ewrite_covered {v v' : Volume} {chain : Nat → List Nat} (hw : FatWf v chain)
    {e e' : Dirent} {i off n : Nat} {x : Xfer} {r : Int}
    (he : Covered v.geom e (chain i)) (h : ewrite v e x off n = .ok (v', e', r))
    (hin : FreshInRange v v') :
    ∃ l, FatWf v' (update chain i l) ∧ Covered v'.geom e' l ∧ v'.geom = v.geom ∧
      e'.attr = e.attr ∧ (e.firstClus ≠ 0 → e'.firstClus ≠ 0) := by
  unfold ewrite at h
  split at h
  · simp only [Except.ok.injEq, Prod.mk.injEq] at h
    obtain ⟨rfl, rfl, _⟩ := h
    exact ⟨chain i, by rwa [update_eq_self], he, rfl, rfl, fun hf ↦ hf⟩
  · next hguard =>
    have hoff : off ≤ e.fileSize := by omega
    split at h
    · cases h
    · next v1 e1 hfirst =>
      split at h
      · cases h
      · next v2 e2 off2 tot hloop =>
        simp only [Except.ok.injEq, Prod.mk.injEq] at h
        obtain ⟨rfl, rfl, _⟩ := h
        have hl2 := ewriteLoop_later x n _ _ _ _ _ hloop
        -- the entry with its first cluster, old or new
        have hstart : ∃ l1, Extended v1 (update chain i l1) i e1 v1 e1 l1 ∧
            e1.firstClus ≠ 0 ∧ off ≤ l1.length * v1.geom.bytsPerClus ∧
            e.fileSize ≤ l1.length * v1.geom.bytsPerClus ∧ Later v v1 ∧
            e1.fileSize = e.fileSize ∧ e1.attr = e.attr := by
          rcases ewriteFirst_cases hfirst with ⟨hf, rfl, rfl⟩ | ⟨c, hf, ha, rfl⟩
          · refine ⟨chain i, ⟨?_, he.onChain, ?_, rfl, rfl⟩, hf, hoff.trans he.size, he.size,
              Later.refl _, rfl, rfl⟩
            · rwa [update_idem, update_eq_self]
            · rw [update_self]
          · have hnil := he.onChain.eq_nil hf
            have hl1 := allocClus_later ha
            have hfree := (allocClus_fat ha).2.2
            have hr : v.geom.InRange c := by
              apply hin.left hw.reserved hl1 hl2 c hfree
              rw [(allocClus_fat ha).2.1, update_self]
              simp
            have hw1 := hw.start hnil ha hr
            have hsize := he.size
            rw [hnil, List.length_nil, Nat.zero_mul] at hsize
            have hc0 : c ≠ 0 := by
              have := hr.1
              omega
            refine ⟨[c], ⟨?_, ⟨?_, fun _ ↦ rfl⟩, ?_, rfl, rfl⟩, hc0, ?_, ?_, hl1, rfl, rfl⟩
            · rwa [update_idem]
            · simp [hc0]
            · rw [update_self]
            · omega
            · omega
        obtain ⟨l1, hext1, hf1, hoff1, hsz1, hl1, hfs, hattr⟩ := hstart
        have hw1 : FatWf v1 (update chain i l1) := by
          have := hext1.wf
          rwa [update_idem] at this
        have hon1 : OnChain e1 (update chain i l1 i) := by
          rw [update_self]
          exact hext1.onChain
        obtain ⟨l, hext, hend⟩ := ewriteLoop_extended x n _ hw1 hon1 hf1
          (by rwa [update_self]) hloop (hin.right hw.reserved hl1)
        have hfc2 : e2.firstClus = e1.firstClus := by rw [hext.entry]
        have hattr2 : e2.attr = e1.attr := by rw [hext.entry]
        refine ⟨l, ?_, ?_, hext.geom.trans hl1.geom, ?_, fun _ ↦ ?_⟩
        · have := hext.wf
          rwa [update_idem] at this
        · have hgrown := hext.grown
          rw [update_self] at hgrown
          have hsz2 : e2.fileSize ≤ l.length * v2.geom.bytsPerClus := by
            rw [hext.entry, hext.geom]
            show e1.fileSize ≤ _
            rw [hfs]
            exact hsz1.trans (Nat.mul_le_mul_right _ hgrown)
          split
          · refine ⟨⟨hext.onChain.head, hext.onChain.cursor⟩, ?_⟩
            rw [hext.geom]
            exact hend
          · exact ⟨hext.onChain, hsz2⟩
        · split <;> exact hattr2.trans hattr
        · split <;> exact hfc2 ▸ hf1

/-! ### Truncation -/

private theorem etruncLoop_chain : ∀ (l : List Nat) (c fuel : Nat) (v : Volume),
    IsChain v (c :: l) → (c :: l).Nodup → (c :: l).length ≤ fuel →
    etruncLoop fuel v c = { v with fat := fun x ↦ if x ∈ c :: l then 0 else v.fat x }
  | l, c, 0, v, _, _, hlen => by simp at hlen
  | l, c, fuel + 1, v, hl, hn, hlen => by
    have hc := hl.inRange c (by simp)
    rw [etruncLoop, if_pos ⟨hc.1, hc.lt_eoc⟩, freeClus, writeFat_of_inRange hc,
      readFat_of_inRange hc]
    cases l with
    | nil =>
      have hstop := hl.linked
      have hfat : (fun x ↦ if x ∈ [c] then 0 else v.fat x) = update v.fat c 0 := by
        funext x
        by_cases hx : x = c <;> simp [hx]
      rw [hfat]
      cases fuel with
      | zero => rfl
      | succ fuel =>
        rw [etruncLoop, if_neg]
        intro hx
        exact absurd hstop.1 (Nat.not_le.mpr hx.2)
    | cons d l =>
      have hlink := hl.linked
      have hnot : c ∉ d :: l := (List.nodup_cons.mp hn).1
      rw [hlink.1, etruncLoop_chain l d fuel]
      · congr 1
        funext x
        by_cases hx : x = c
        · simp [hx]
        · simp [hx]
      · constructor
        · exact (linked_update_of_not_mem hnot).mpr hlink.2
        · intro x hx
          exact hl.inRange x (List.mem_cons_of_mem _ hx)
      · exact (List.nodup_cons.mp hn).2
      · simp only [List.length_cons] at hlen ⊢
        omega

/-- A chain without repetition is no longer than the number of data clusters. -/
theorem IsChain.length_le {v : Volume} {l : List Nat} (hl : IsChain v l) (hn : l.Nodup) :
    l.length ≤ v.geom.dataClusCnt := by
  have hsub : l ⊆ List.range' 2 v.geom.dataClusCnt := by
    intro c hc
    have hr := hl.inRange c hc
    have h1 := hr.1
    have h2 := hr.2
    rw [List.mem_range'_1]
    omega
  have := (List.subperm_of_subset hn hsub).length_le
  rwa [List.length_range'] at this

/-- `etrunc` frees exactly the chain of the entry. -/
theorem etrunc_wf {v : Volume} {chain : Nat → List Nat} (hw : FatWf v chain) {e : Dirent}
    {i : Nat} (he : OnChain e (chain i)) :
    (etrunc v e).1.geom = v.geom ∧ (etrunc v e).1.card = v.card ∧
      (etrunc v e).1.fat = (fun c ↦ if c ∈ chain i then 0 else v.fat c) ∧
      FatWf (etrunc v e).1 (update chain i []) := by
  have hfat : (etrunc v e).1 = { v with fat := fun c ↦ if c ∈ chain i then 0 else v.fat c } := by
    unfold etrunc
    cases hc : chain i with
    | nil =>
      have hz : e.firstClus = 0 := by
        by_contra hf
        have := he.getElem?_zero hf
        simp [hc] at this
      simp [hz, etruncLoop]
    | cons c l =>
      have hhead : e.firstClus = c := by
        have hh := he.head
        rw [hc, List.head?_cons] at hh
        split at hh
        · cases hh
        · exact (Option.some.inj hh).symm
      have hch := hw.isChain i
      have hnd := hw.forest.nodup i
      rw [hc] at hch hnd
      have hlen := hch.length_le hnd
      rw [hhead]
      exact etruncLoop_chain l c _ v hch hnd (by omega)
  rw [hfat]
  refine ⟨rfl, rfl, rfl, hw.forest.release i, ?_⟩
  show (if 0 ∈ chain i then 0 else v.fat 0) ≠ 0
  rw [if_neg]
  · exact hw.reserved
  · intro h0
    exact not_inRange_zero _ (hw.forest.inDom i 0 h0)

/-! ### Directory slots -/

private theorem putSlot_cases {v v' : Volume} {dp dp' : Dirent} {off : Nat} {de : List UInt8}
    (h : putSlot v dp off de = .ok (v', dp')) :
    ∃ v1 off2 r out, relocClus v dp off true = .ok (v1, dp', off2) ∧
      rwClus v1 dp'.curClus (.write fun i ↦ some (de.getD i 0)) 0 (toU32 off2) 32 =
        .ok (v', r, out) := by
  unfold putSlot at h
  split at h
  · cases h
  · next hr =>
    split at h
    · cases h
    · next hx =>
      simp only [Except.ok.injEq, Prod.mk.injEq] at h
      obtain ⟨rfl, rfl⟩ := h
      exact ⟨_, _, _, _, hr, hx⟩

private theorem putSlot_later {v v' : Volume} {dp dp' : Dirent} {off : Nat} {de : List UInt8}
    (h : putSlot v dp off de = .ok (v', dp')) : Later v v' := by
  obtain ⟨v1, off2, r, out, hr, hx⟩ := putSlot_cases h
  exact (relocClus_later hr).trans (rwClus_later hx)

private theorem putSlot_extended {v v' : Volume} {chain : Nat → List Nat} (hw : FatWf v chain)
    {dp dp' : Dirent} {i off : Nat} {de : List UInt8} (he : OnChain dp (chain i))
    (hf : dp.firstClus ≠ 0) (h : putSlot v dp off de = .ok (v', dp'))
    (hin : FreshInRange v v') : ∃ l, Extended v chain i dp v' dp' l := by
  obtain ⟨v1, off2, r, out, hr, hx⟩ := putSlot_cases h
  obtain ⟨l, hext, _⟩ := relocClus_extended hw he hf hr
    (hin.left hw.reserved (relocClus_later hr) (rwClus_later hx))
  exact ⟨l, hext.rwClus hx⟩

private theorem emakeLong_later (name : List UInt8) (ck : UInt8) (entcnt : Nat) :
    ∀ (k : Nat) {v v' : Volume} {dp dp' : Dirent} {off off' : Nat},
      emakeLong name ck entcnt k v dp off = .ok (v', dp', off') → Later v v'
  | 0, v, v', dp, dp', off, off', h => by
    simp only [emakeLong, Except.ok.injEq, Prod.mk.injEq] at h
    rw [← h.1]
    exact Later.refl v
  | k + 1, v, v', dp, dp', off, off', h => by
    simp only [emakeLong] at h
    split at h
    · cases h
    · next hp => exact (putSlot_later hp).trans (emakeLong_later name ck entcnt k h)

private theorem emakeLong_extended (name : List UInt8) (ck : UInt8) (entcnt : Nat) :
    ∀ (k : Nat) {v v' : Volume} {chain : Nat → List Nat} {dp dp' : Dirent} {i off off' : Nat},
      FatWf v chain → OnChain dp (chain i) → dp.firstClus ≠ 0 →
      emakeLong name ck entcnt k v dp off = .ok (v', dp', off') → FreshInRange v v' →
      ∃ l, Extended v chain i dp v' dp' l
  | 0, v, v', chain, dp, dp', i, off, off', hw, he, _, h, _ => by
    simp only [emakeLong, Except.ok.injEq, Prod.mk.injEq] at h
    obtain ⟨rfl, rfl, rfl⟩ := h
    exact ⟨chain i, by rwa [update_eq_self], he, Nat.le_refl _, rfl, rfl⟩
  | k + 1, v, v', chain, dp, dp', i, off, off', hw, he, hf, h, hin => by
    simp only [emakeLong] at h
    split at h
    · cases h
    · next v1 dp1 hp =>
      have hl1 := putSlot_later hp
      have hl2 := emakeLong_later name ck entcnt k h
      obtain ⟨l, hext⟩ := putSlot_extended hw he hf hp (hin.left hw.reserved hl1 hl2)
      have hf1 : dp1.firstClus ≠ 0 := by
        rw [hext.entry]
        exact hf
      obtain ⟨l', hext'⟩ := emakeLong_extended name ck entcnt k (i := i) hext.wf
        (by rw [update_self]; exact hext.onChain) hf1 h (hin.right hw.reserved hl1)
      exact ⟨l', hext.trans hext'⟩

/-- `emake` frees nothing. -/
theorem emake_later {v v' : Volume} {dp dp' ep : Dirent} {off : Nat}
    (h : emake v dp ep off = .ok (v', dp')) : Later v v' := by
  unfold emake at h
  split at h
  · cases h
  · split at h
    · cases h
    · split at h
      · exact putSlot_later h
      · dsimp only at h
        split at h
        · cases h
        · next hl => exact (emakeLong_later _ _ _ _ hl).trans (putSlot_later h)

/-- `emake` extends the chain of the directory as far as its slots need. -/
theorem emake_extended {v v' : Volume} {chain : Nat → List Nat} (hw : FatWf v chain)
    {dp dp' ep : Dirent} {i off : Nat} (he : OnChain dp (chain i)) (hf : dp.firstClus ≠ 0)
    (h : emake v dp ep off = .ok (v', dp')) (hin : FreshInRange v v') :
    ∃ l, Extended v chain i dp v' dp' l := by
  unfold emake at h
  split at h
  · cases h
  · split at h
    · cases h
    · split at h
      · exact putSlot_extended hw he hf h hin
      · dsimp only at h
        split at h
        · cases h
        · next v1 dp1 off1 hl =>
          have hl1 := emakeLong_later _ _ _ _ hl
          obtain ⟨l, hext⟩ := emakeLong_extended _ _ _ _ hw he hf hl
            (hin.left hw.reserved hl1 (putSlot_later h))
          have hf1 : dp1.firstClus ≠ 0 := by
            rw [hext.entry]
            exact hf
          obtain ⟨l', hext'⟩ := putSlot_extended (i := i) hext.wf
            (by rw [update_self]; exact hext.onChain) hf1 h
            (hin.right hw.reserved hl1)
          exact ⟨l', hext.trans hext'⟩

end Xv6K210.Fs
