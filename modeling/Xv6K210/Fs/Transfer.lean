import Xv6K210.Base.Prefix
import Xv6K210.Fs.Contents

/-!
# Transfers that the far end cuts short

Source `kernel/fs/fat32.c:253–282,325–378`. A transfer goes sector by sector and
stops at the first piece that user memory does not take as a whole. Which bytes are taken is a
predicate on the positions of the request, so what `eread` delivers and what it counts follow
from the first position refused.
-/

namespace Xv6K210.Fs

open Xv6K210.Base Function

/-- Where the piece of position `j` ends, in a transfer of `t` bytes at offset `o` of a file: at
the end of its sector or of the transfer. -/
def pieceEnd (o t j : Nat) : Nat := min t (((o + j) / bsize + 1) * bsize - o)

/-- Position `j` of the transfer is taken by the far end. User memory refuses a piece as a whole
when it ends behind the user addresses. -/
def Xfer.takes (x : Xfer) (o t j : Nat) : Bool :=
  match x with
  | .write src => (src j).isSome
  | .read dst => dst j
  | .copyin mem addr => (mem (addr + j)).isSome && addr + pieceEnd o t j ≤ maxUva
  | .copyout mem addr => mem (addr + j) && addr + pieceEnd o t j ≤ maxUva

/-- The transfer delivers bytes to the far end. -/
def Xfer.Reads : Xfer → Prop
  | .read _ => True
  | .copyout _ _ => True
  | _ => False

/-! ### One piece -/

section Piece

variable {o t p m : Nat}

end Piece

/-! ### The pieces inside one cluster -/

/-- What a loop of `eread` that began at offset `o` counts and delivers, from position `tot` on:
the bytes of the initial run are delivered, and all of them are counted exactly when the run is
complete or ends with a cluster. -/
structure ReadRun (g : Geom) (x : Xfer) (o t tot len tot' len' : Nat) : Prop where
  le : tot ≤ tot'
  le_run : tot' ≤ tot + goodRun (x.takes o t) tot (t - tot)
  counted : tot' = tot + goodRun (x.takes o t) tot (t - tot) ↔
    goodRun (x.takes o t) tot (t - tot) = t - tot ∨ goodRun (x.takes o t) tot (t - tot) = 0 ∨
      (o + tot + goodRun (x.takes o t) tot (t - tot)) % g.bytsPerClus = 0
  delivered : len' = len + goodRun (x.takes o t) tot (t - tot)

variable {x : Xfer} {o t : Nat}

private theorem ReadRun.done (g : Geom) (len : Nat) : ReadRun g x o t t len t len where
  le := Nat.le_refl t
  le_run := Nat.le_add_right t _
  counted := by simp [goodRun]
  delivered := by simp [goodRun]

-- A complete chunk either ends the transfer or ends with its cluster.
private theorem ReadRun.chunk {g : Geom} {tot m len len1 tot' len' : Nat}
    (hm : m = min (g.bytsPerClus - (o + tot) % g.bytsPerClus) (t - tot)) (ht : tot < t)
    (hfull : goodRun (x.takes o t) tot m = m) (hlen : len1 = len + m)
    (h : ReadRun g x o t (tot + m) len1 tot' len') : ReadRun g x o t tot len tot' len' := by
  have hpos := g.bytsPerClus_pos
  have hmod := Nat.mod_lt (o + tot) hpos
  have hsplit := goodRun_add (x.takes o t) tot m (t - (tot + m))
  rw [show m + (t - (tot + m)) = t - tot by omega, if_pos hfull] at hsplit
  have hle := goodRun_le (x.takes o t) (tot + m) (t - (tot + m))
  have hend : m = t - tot ∨ (o + (tot + m)) % g.bytsPerClus = 0 := by
    by_cases hmt : m = t - tot
    · exact Or.inl hmt
    · right
      have hdm := Nat.div_add_mod' (o + tot) g.bytsPerClus
      have hnext : o + (tot + m) = ((o + tot) / g.bytsPerClus + 1) * g.bytsPerClus := by
        rw [Nat.add_mul, Nat.one_mul]
        omega
      rw [hnext, Nat.mul_mod_left]
  -- `s` bytes are left behind this chunk
  obtain ⟨s, hs⟩ := Nat.exists_eq_add_of_le (show m ≤ t - tot from hm ▸ Nat.min_le_right _ _)
  have hleft : t - (tot + m) = s := by omega
  obtain ⟨h1, h2, h3, h4⟩ := h
  rw [hs, hleft] at hsplit
  rw [hleft] at hle h2 h3 h4
  rw [hs] at hend
  rw [Nat.add_assoc o] at h3
  clear hm hmod hleft
  generalize hr2 : goodRun (x.takes o t) (tot + m) s = r2 at *
  have hassoc : o + tot + (m + r2) = o + (tot + m + r2) := by omega
  have hassoc' : tot + (m + r2) = tot + m + r2 := by omega
  rw [← Nat.add_assoc o] at h3
  constructor
  · omega
  · rw [hs, hsplit]
    omega
  · rw [hs, hsplit, hassoc', hassoc, h3]
    clear hs
    have heq : o + (tot + m) + r2 = o + (tot + m + r2) := by omega
    rw [heq]
    constructor
    · rintro (hall | hnone | hclus)
      · exact Or.inl (by omega)
      · rcases hend with hmt | hbd
        · exact Or.inl (by omega)
        · right; right
          rw [hnone, Nat.add_zero]
          exact hbd
      · exact Or.inr (Or.inr hclus)
    · rintro (hall | hnone | hclus)
      · exact Or.inl (by omega)
      · exact Or.inr (Or.inl (by omega))
      · exact Or.inr (Or.inr hclus)
  · rw [hs, hsplit]
    omega

-- A chunk that is cut short ends the loop, and what it delivered is not counted.
private theorem ReadRun.cut {g : Geom} {tot m len : Nat}
    (hm : m = min (g.bytsPerClus - (o + tot) % g.bytsPerClus) (t - tot)) (ht : tot < t)
    (hshort : goodRun (x.takes o t) tot m ≠ m) :
    ReadRun g x o t tot len tot (len + goodRun (x.takes o t) tot m) := by
  have hpos := g.bytsPerClus_pos
  have hmod := Nat.mod_lt (o + tot) hpos
  have hsplit := goodRun_add (x.takes o t) tot m (t - (tot + m))
  have hmle : m ≤ t - tot := hm ▸ Nat.min_le_right _ _
  have hin : (o + tot) % g.bytsPerClus + m ≤ g.bytsPerClus := by omega
  clear hm
  rw [show m + (t - (tot + m)) = t - tot by omega, if_neg hshort] at hsplit
  have hle := goodRun_le (x.takes o t) tot m
  rw [← hsplit] at hle hshort ⊢
  constructor
  · omega
  · omega
  · constructor
    · intro h
      exact Or.inr (Or.inl (by omega))
    · rintro (hall | hnone | hclus)
      · omega
      · omega
      · -- the run ends inside the cluster in which it began
        have hsame := (sameCluster g.bytsPerClus (o + tot)
          (goodRun (x.takes o t) tot (t - tot)) (by omega)).2
        omega
  · rfl

/-- Reading leaves the volume alone. -/
theorem rwClus_reads {v v' : Volume} {c k off n r : Nat} {out : List UInt8}
    (hx : x.Reads) (h : rwClus v c x k off n = .ok (v', r, out)) : v' = v := by
  have hsec : ∀ (w : Volume) (p sec o m : Nat), (rwSector w x p sec o m).1 = w := by
    intro w p sec o m
    cases x with
    | write src => exact hx.elim
    | read dst => rfl
    | copyin mem addr => exact hx.elim
    | copyout mem addr => rfl
  have hloop : ∀ (fuel : Nat) (w : Volume) (sec off tot : Nat) (out : List UInt8),
      (rwLoop x k n fuel w sec off tot out).1 = w := by
    intro fuel
    induction fuel with
    | zero => exact fun _ _ _ _ _ ↦ rfl
    | succ fuel ih =>
      intro w sec off tot out
      simp only [rwLoop]
      split
      · split
        · rw [ih, hsec]
        · exact hsec ..
      · rfl
  unfold rwClus at h
  split at h
  · cases h
  · injection h with h
    have := hloop n v ((v.geom.firstSecOfClus c + off / bsize) % 2 ^ 32) (off % bsize) 0 []
    rw [h] at this
    exact this

private theorem ereadLoop_reads (hx : x.Reads) (n : Nat) : ∀ (fuel : Nat) {v v' : Volume}
    {e e' : Dirent} {off tot tot' : Nat} {out out' : List UInt8},
    ereadLoop x n fuel v e off tot out = .ok (v', e', tot', out') → v' = v
  | 0, v, v', e, e', off, tot, tot', out, out', h => by
    simp only [ereadLoop, Except.ok.injEq, Prod.mk.injEq] at h
    exact h.1.symm
  | fuel + 1, v, v', e, e', off, tot, tot', out, out', h => by
    rw [ereadLoop] at h
    split at h
    · split at h
      · cases h
      · next v1 e1 _ hr =>
        dsimp only at h
        split at h
        · cases h
        · next v2 q bs hxr =>
          have hv : v2 = v := (rwClus_reads hx hxr).trans (relocClus_seek hr).1
          split at h
          · simp only [Except.ok.injEq, Prod.mk.injEq] at h
            exact h.1.symm.trans hv
          · exact (ereadLoop_reads hx n fuel h).trans hv
    · simp only [Except.ok.injEq, Prod.mk.injEq] at h
      exact h.1.symm

/-- `eread` leaves the volume alone. -/
theorem eread_reads (hx : x.Reads) {v v' : Volume} {e e' : Dirent} {off n : Nat} {r : Int}
    {out : List UInt8} (h : eread v e x off n = .ok (v', e', r, out)) : v' = v := by
  unfold eread at h
  split at h
  · simp only [Except.ok.injEq, Prod.mk.injEq] at h
    exact h.1.symm
  · dsimp only at h
    split at h
    · cases h
    · next hl =>
      simp only [Except.ok.injEq, Prod.mk.injEq] at h
      exact h.1.symm.trans (ereadLoop_reads hx _ _ hl)

section Readable

variable {mem : Nat → Option UInt8} {addr : Nat}

end Readable

/-! ### Writing on a full volume -/

variable {v : Volume} {chain : Nat → List Nat} {e : Dirent} {i : Nat}

end Xv6K210.Fs
