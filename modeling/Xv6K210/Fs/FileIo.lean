import Xv6K210.Fs.Transfer

/-!
# Reading and writing open files

Source `kernel/fs/file.c:126–209` and `kernel/fs/fat32.c:680–685`, for files of type
`FD_ENTRY`. The length is an `int` here and a `uint` from `eread` and `ewrite` on, and a fault in
user memory can end a transfer at any byte.
-/

namespace Xv6K210.Fs

open Xv6K210.Base Function

/-- The fields of `struct file` that an open entry uses, but for the entry itself. -/
structure FileEntry where
  readable : Bool
  writable : Bool
  off : Nat
  deriving DecidableEq, Repr

/-- `elock` (`fat32.c:680–685`) of an entry that is not null. -/
def elock (e : Dirent) : Except Panic Unit := if e.ref < 1 then .error .elock else .ok ()

/-- `f->off += r` for a positive `r`. -/
def FileEntry.advance (f : FileEntry) (r : Int) : FileEntry :=
  if 0 < r then { f with off := (f.off + r.toNat) % 2 ^ 32 } else f

/-- The loop of `filewrite` (`file.c:188–202`). A round that does not end it writes all that is
left, so `n` rounds are enough. -/
def filewriteLoop (mem : Nat → Option UInt8) (addr : Nat) (n : Int) : Nat → Volume → Dirent →
    FileEntry → Nat → Except Panic (Volume × Dirent × FileEntry × Nat)
  | 0, v, e, f, i => .ok (v, e, f, i)
  | fuel + 1, v, e, f, i =>
    if i < n then
      let n1 := n - i
      match elock e with
      | .error p => .error p
      | .ok () =>
        match ewrite v e (.copyin mem (addr + i)) f.off (toU32 n1) with
        | .error p => .error p
        | .ok (v, e, r) =>
          if r < 0 then .ok (v, e, f.advance r, i)
          else if r ≠ n1 then .error .shortFilewrite
          else filewriteLoop mem addr n fuel v e (f.advance r) (i + r.toNat)
    else .ok (v, e, f, i)

/-- `filewrite` (`file.c:173–209`). -/
def filewrite (v : Volume) (e : Dirent) (f : FileEntry) (mem : Nat → Option UInt8) (addr : Nat)
    (n : Int) : Except Panic (Volume × Dirent × FileEntry × Int) :=
  if f.writable = false then .ok (v, e, f, -1)
  else
    match filewriteLoop mem addr n n.toNat v e f 0 with
    | .error p => .error p
    | .ok (v, e, f, i) => .ok (v, e, f, if (i : Int) = n then n else -1)

section Read

variable {v : Volume} {chain : Nat → List Nat} {i : Nat} {e : Dirent} {f : FileEntry}
variable {mem : Nat → Bool} {addr : Nat} {n : Int}

end Read

/-- The small volume with a file in cluster 3. -/
def readVolume : Volume where
  geom := smallGeom
  fat c := if 3 < c ∧ c ≤ 9 then 0 else fat32Eoc + 7
  card _ := 7

/-- A file of five bytes in cluster 3. -/
def readEntry : Dirent :=
  { attr := attrArchive, firstClus := 3, curClus := 3, fileSize := 5, valid := 1, ref := 1 }

/-- That file, open for reading and writing at offset `off`. -/
def openAt (off : Nat) : FileEntry := ⟨true, true, off⟩

/-- The chains of that volume: the root directory and the file. -/
def readChains (i : Nat) : List Nat := if i = 0 then [2] else if i = 1 then [3] else []

/-- The table of that volume is well formed. -/
theorem readVolume_wf : FatWf readVolume readChains := by
  have hcases : ∀ i, readChains i = [2] ∧ i = 0 ∨ readChains i = [3] ∧ i = 1 ∨
      readChains i = [] := by
    intro i
    by_cases h0 : i = 0
    · exact Or.inl ⟨by rw [readChains, if_pos h0], h0⟩
    · by_cases h1 : i = 1
      · exact Or.inr (Or.inl ⟨by rw [readChains, if_neg h0, if_pos h1], h1⟩)
      · exact Or.inr (Or.inr (by rw [readChains, if_neg h0, if_neg h1]))
  refine ⟨⟨fun i ↦ ?_, fun i ↦ ?_, fun i c hc ↦ ?_, fun i j hij ↦ ?_, fun c hc hu ↦ ?_⟩,
    by decide⟩
  · rcases hcases i with ⟨h, -⟩ | ⟨h, -⟩ | h
    · rw [h]
      exact ⟨by decide, by decide⟩
    · rw [h]
      exact ⟨by decide, by decide⟩
    · rw [h]
      trivial
  · rcases hcases i with ⟨h, -⟩ | ⟨h, -⟩ | h <;> simp [h]
  · rcases hcases i with ⟨h, -⟩ | ⟨h, -⟩ | h
    · rw [h, List.mem_singleton] at hc
      rw [hc]
      decide
    · rw [h, List.mem_singleton] at hc
      rw [hc]
      decide
    · simp [h] at hc
  · rcases hcases i with ⟨h, hi⟩ | ⟨h, hi⟩ | h <;> rcases hcases j with ⟨h', hj⟩ | ⟨h', hj⟩ | h'
    · omega
    · simp [h, h']
    · simp [h']
    · simp [h, h']
    · omega
    · simp [h']
    · simp [h]
    · simp [h]
    · simp [h]
  · have h1 := hc.1
    have h2 : c ≤ 9 := hc.2
    have h3 : ¬ (3 < c ∧ c ≤ 9) := by
      intro hx
      simp [readVolume, hx] at hu
    by_cases hc2 : c = 2
    · exact ⟨0, by rw [hc2]; decide⟩
    · exact ⟨1, by rw [show c = 3 by omega]; decide⟩

section Write

variable {v : Volume} {chain : Nat → List Nat} {i : Nat} {e : Dirent} {f : FileEntry}
variable {mem : Nat → Option UInt8} {addr : Nat} {n : Int}

/-- User memory yields every byte of the request. -/
def Readable (mem : Nat → Option UInt8) (addr off n : Nat) : Prop :=
  ∀ j < n, (Xfer.copyin mem addr).takes off n j = true

/-- There are free clusters for all that the request adds to the file. -/
def Room (v : Volume) (e : Dirent) (off n : Nat) : Prop :=
  max 1 (clustersFor v.geom (off + n)) - (chainOf v e).length ≤ freeCount v

end Write

end Xv6K210.Fs
