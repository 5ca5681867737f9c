import Xv6K210.Vm.Map

/-!
# Where a mapping goes

Source `kernel/vm/mmap/mmap.c:38–60`. `vma_find_address` goes down from `MMAP_TOP`,
below one mapping a round. No round skips an address with room, so the loop ends with the highest
address that has room.
-/

namespace Xv6K210.Vm

variable {O : Type} {sz length : Nat} {vmas : Fin nvma → Option (Vma O)}

/-- There is room for a mapping of `length` bytes at `s`. -/
structure Room (sz : Nat) (vmas : Fin nvma → Option (Vma O)) (length s : Nat) : Prop where
  aligned : s % pgsize = 0
  above : pgroundup sz ≤ s
  below : s + length ≤ mmapTop
  free : ∀ i v, vmas i = some v → ¬ v.overlaps s (s + length)

/-! ### The highest address -/

/-- Below `top` the loop finds the highest address with room, or 0. -/
theorem findAddressLoop_highest (h : Layout sz vmas) (hlen : length % pgsize = 0) {start : Nat}
    (rounds top : Nat) (htop : top % pgsize = 0) (hbottom : pgroundup sz ≤ top)
    (hmax : top ≤ mmapTop) (hbelow : ∀ s, Room sz vmas length s → s + length ≤ top)
    (heq : findAddressLoop vmas (pgroundup sz) length rounds top = some start) :
    (start ≠ 0 → Room sz vmas length start) ∧ ∀ s, Room sz vmas length s → s ≤ start := by
  induction rounds generalizing top with
  | zero => cases heq
  | succ rounds ih =>
    rw [findAddressLoop] at heq
    split_ifs at heq with hroom
    swap
    · -- the gap above the heap is too small
      have hzero : 0 = start := Option.some.inj heq
      refine ⟨fun hne ↦ absurd hzero.symm hne, fun s hs ↦ ?_⟩
      have hs1 := hbelow s hs
      have hs2 := hs.above
      omega
    cases hover : highestOverlap vmas (top - length) top with
    | none =>
      rw [hover] at heq
      have hstart : top - length = start := Option.some.inj heq
      have hfin : start + length = top := by omega
      refine ⟨fun _ ↦ ⟨?_, ?_, ?_, ?_⟩, fun s hs ↦ ?_⟩
      · unfold pgsize at *
        omega
      · omega
      · omega
      · intro i v hv
        rw [hfin, ← hstart]
        exact highestOverlap_none hover hv
      · have hs1 := hbelow s hs
        omega
    | some s =>
      rw [hover] at heq
      obtain ⟨i, v, hv, ho, rfl⟩ := highestOverlap_some hover
      rw [Vma.overlaps_iff] at ho
      refine ih v.start (h.ok i v hv).start_mod (h.above i v hv) (by omega) ?_ heq
      -- what has room and does not end below the mapping would begin above it
      intro s hs
      have hs1 := hbelow s hs
      have hfree := hs.free i v hv
      rw [Vma.overlaps_iff] at hfree
      omega

/-- `vma_find_address` ends: from every bottom its loop has a result after `NVMA + 1` rounds at
most, and `vma_find_address` yields that result. It is the highest page-aligned address from the
heap to `MMAP_TOP` where no mapping meets the range; when it is 0, no other address has room. -/
theorem vmaFindAddress_highest (h : Layout sz vmas) (hlen : length % pgsize = 0) :
    (∀ bottom, ∃ start, ∀ more,
      findAddressLoop vmas bottom length (nvma + 1 + more) mmapTop = some start) ∧
    (pgroundup sz ≤ mmapTop → ∀ more,
      findAddressLoop vmas (pgroundup sz) length (nvma + 1 + more) mmapTop =
        some (vmaFindAddress sz vmas length)) ∧
    (vmaFindAddress sz vmas length ≠ 0 → Room sz vmas length (vmaFindAddress sz vmas length) ∧
      ∀ s, Room sz vmas length s → s ≤ vmaFindAddress sz vmas length) ∧
    (vmaFindAddress sz vmas length = 0 → ∀ s, s ≠ 0 → ¬ Room sz vmas length s) := by
  refine ⟨fun bottom ↦ ?_, fun hroom more ↦ ?_, ?_⟩
  · obtain ⟨start, hstart⟩ :=
      Option.isSome_iff_exists.mp (findAddressLoop_isSome vmas bottom length)
    exact ⟨start, fun more ↦ findAddressLoop_more _ more _ hstart⟩
  · exact findAddressLoop_more _ more _ (findAddressLoop_eq hroom length)
  have hhighest : (vmaFindAddress sz vmas length ≠ 0 →
      Room sz vmas length (vmaFindAddress sz vmas length)) ∧
      ∀ s, Room sz vmas length s → s ≤ vmaFindAddress sz vmas length := by
    rcases lt_or_ge mmapTop (pgroundup sz) with hroom | hroom
    · refine ⟨fun hne ↦ absurd (if_pos hroom) hne, fun s hs ↦ ?_⟩
      have hs1 := hs.above
      have hs2 := hs.below
      omega
    · exact findAddressLoop_highest h hlen (nvma + 1) mmapTop mmapTop_mod hroom le_rfl
        (fun s hs ↦ hs.below) (findAddressLoop_eq hroom length)
  refine ⟨fun hne ↦ ⟨hhighest.1 hne, hhighest.2⟩, fun hzero s hs hroom ↦ ?_⟩
  have hle := hhighest.2 s hroom
  omega

/-- A table with one mapping, of the two highest pages. -/
def highPages : Fin nvma → Option (Vma Nat) :=
  Function.update (fun _ ↦ none) ⟨3, by decide⟩
    (some (.fresh .anon (mmapTop - 8192) 8192 3 0x22 (some 0) 0))

private theorem layout_highPages : Layout 5000 highPages := by
  refine (Layout.empty 5000).put (Vma.fresh_ok (by decide) (by decide) (by decide)) (by decide) ?_
  intro j v' hj hv'
  cases hv'

/-- Three pages go right below the mapping. -/
theorem vmaFindAddress_highest_below : vmaFindAddress 5000 highPages 12288 = mmapTop - 20480 ∧
    ∀ s, Room 5000 highPages 12288 s → s ≤ vmaFindAddress 5000 highPages 12288 :=
  ⟨by decide +kernel,
    ((vmaFindAddress_highest layout_highPages (by decide)).2.2.1 (by decide +kernel)).2⟩

end Xv6K210.Vm
