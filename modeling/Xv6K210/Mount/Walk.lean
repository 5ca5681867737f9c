import Xv6K210.Ecache.Lookup
import Xv6K210.Mount.Store

/-!
# Lookups on contents that do not change

Source `kernel/fs/fat32.c:680–716,835–950`. A cached entry stands at a place of the
tree on the disk where the names on the way to it lead there. While all filled slots do, a lookup
finds what a walk finds that uses no cache, and `eput` writes nothing.
-/

namespace Xv6K210.Mount

open Xv6K210.Base Xv6K210.Ecache Prog

/-! ### The walk without a cache -/

/-- A place in the tree: what the names on the way to it led to, the last one first. -/
abbrev Place := List Found

/-- The first cluster of the directory at a place. -/
def Place.clus (v : Fs.Volume) : Place → Nat
  | [] => v.geom.rootClus
  | x :: _ => x.firstClus

/-- The place is that of a directory. -/
def Place.isDir : Place → Bool
  | [] => true
  | x :: _ => x.attr &&& Fs.attrDirectory ≠ 0

/-- The place that a name leads to. -/
def coldStep (v : Fs.Volume) (name : List UInt8) (place : Place) :
    Except Fs.Panic (Option Place) :=
  if sameName name [Fs.dotCh] then .ok (some place)
  else if sameName name [Fs.dotCh, Fs.dotCh] then .ok (some place.tail)
  else
    match coldSearch v (Place.clus v place) name with
    | .error p => .error p
    | .ok none => .ok none
    | .ok (some x) => .ok (some (x :: place))

/-- The place that a path leads to. -/
def coldWalk (v : Fs.Volume) : List (List UInt8) → Place → Except Fs.Panic (Option Place)
  | [], place => .ok (some place)
  | name :: names, place =>
    if Place.isDir place = false then .ok none
    else
      match coldStep v name place with
      | .error p => .error p
      | .ok none => .ok none
      | .ok (some place) => coldWalk v names place

/-- The places of the tree on the disk. -/
inductive IsPlace (v : Fs.Volume) : Place → Prop where
  | root : IsPlace v []
  | entry {place : Place} {name : List UInt8} {x : Found} (up : IsPlace v place)
      (dir : Place.isDir place = true)
      (found : coldSearch v (Place.clus v place) name = .ok (some x)) : IsPlace v (x :: place)

/-- No directory of the tree has a deleted slot in the middle of an entry. -/
def Tidy (v : Fs.Volume) : Prop :=
  ∀ place, IsPlace v place → Place.isDir place = true → TidyDir v (Place.clus v place)

/-! ### Contents without deleted slots -/

section

variable {v : Fs.Volume}

private theorem eitherCopyout_mem {dst : Nat → Bool} {k : Nat} {bs : List UInt8} {b : UInt8}
    (h : b ∈ (Fs.eitherCopyout dst k bs).1) : b ∈ bs := by
  induction bs generalizing k with
  | nil => cases h
  | cons a bs ih =>
    rw [Fs.eitherCopyout] at h
    split at h
    · rcases List.mem_cons.mp h with rfl | hmem
      · exact List.mem_cons_self
      · exact List.mem_cons_of_mem a (ih hmem)
    · cases h

/-- What is read of the card are bytes of the card. -/
theorem rwLoop_mem {dst : Nat → Bool} {k n : Nat} (fuel : Nat) {sec off tot : Nat}
    {out : List UInt8} (hout : ∀ b ∈ out, ∃ a, v.card a = b) :
    ∀ b ∈ (Fs.rwLoop (.read dst) k n fuel v sec off tot out).2.2, ∃ a, v.card a = b := by
  induction fuel generalizing sec off tot out with
  | zero => exact hout
  | succ fuel ih =>
    rw [Fs.rwLoop]
    have hsector : ∀ b ∈ out ++ (Fs.eitherCopyout dst (k + tot) (load v.card
        (Fs.bsize * sec + off % Fs.bsize) (min (Fs.bsize - off % Fs.bsize) (n - tot)))).1,
        ∃ a, v.card a = b := by
      intro b hb
      rcases List.mem_append.mp hb with hb | hb
      · exact hout b hb
      · obtain ⟨i, -, rfl⟩ := List.mem_map.mp (eitherCopyout_mem hb)
        exact ⟨_, rfl⟩
    split
    · dsimp only [Fs.rwSector]
      split
      · exact ih hsector
      · exact hsector
    · exact hout

private theorem readClus_mem {clus n : Nat} {off : Int} {bs : List UInt8}
    (h : Fs.readClus v clus off n = .ok bs) : ∀ b ∈ bs, ∃ a, v.card a = b := by
  unfold Fs.readClus Fs.rwClus at h
  split at h
  · cases h
  · rename_i hrw
    cases h
    split at hrw
    · cases hrw
    · rw [Except.ok.injEq] at hrw
      have hall : ∀ sec o, ∀ b ∈ (Fs.rwLoop (.read fun _ ↦ true) 0 n n v sec o 0 []).2.2,
          ∃ a, v.card a = b := by
        intro sec o
        apply rwLoop_mem
        intro b hb
        cases hb
      intro b hb
      apply hall
      rw [hrw]
      exact hb

/-- A slot ends the directory, or begins with a byte of the card. -/
theorem enextSlot_head {dp d : Fs.Dirent} {off : Nat} {de : List UInt8}
    (h : Fs.enextSlot v dp off = .ok (d, de)) :
    de.getD 0 0 = Fs.endOfEntry ∨ ∃ a, v.card a = de.getD 0 0 := by
  unfold Fs.enextSlot at h
  split at h
  · cases h
  · split at h
    · cases h
      exact .inl rfl
    · split at h
      · cases h
      · rename_i hread
        cases h
        cases de with
        | nil => exact .inl rfl
        | cons b de => exact .inr (readClus_mem hread b List.mem_cons_self)

/-- `enext` does not stop for empty slots where no byte of the card could mark one. -/
theorem enextLoop_ret (hclean : ∀ a, v.card a ≠ Fs.emptyEntry) {ep : Fs.Dirent} (fuel : Nat)
    {dp : Fs.Dirent} {buf : ByteMem} {off : Nat} {live : Bool} {count : Option Nat}
    {r : Fs.EnextOut} (h : Fs.enextLoop v ep fuel dp buf off 0 live count = .ok r) :
    r.ret ≠ 0 := by
  induction fuel generalizing dp buf off live count with
  | zero => cases h
  | succ fuel ih =>
    obtain ⟨d, de, hslot, ⟨_, _, _, _, hstep, hloop⟩ | ⟨_, hret⟩⟩ := Fs.enextLoop_cases h
    · rcases hstep with ⟨hempty, _⟩ | ⟨_, _, rfl⟩
      · rcases enextSlot_head hslot with hend | ⟨a, ha⟩
        · rw [hend] at hempty
          exact absurd hempty (by decide)
        · exact absurd (ha.trans hempty) (hclean a)
      · exact ih hloop
    · rcases hret with hret | ⟨_, hcnt, _⟩ | ⟨hret, _⟩
      · rw [hret]
        decide
      · exact absurd rfl hcnt
      · rw [hret]
        decide

/-- Contents in which no byte could mark a deleted slot are tidy. -/
theorem tidy_of_clean (hclean : ∀ a, v.card a ≠ Fs.emptyEntry) : Tidy v := by
  intro place _ _ dp ep off count r _ h hret
  unfold Fs.enext at h
  split at h
  · cases h
  · split at h
    · cases h
    · split at h
      · cases h
      · split at h
        · cases h
          cases hret
        · exact absurd hret (enextLoop_ret hclean _ h)

end

/-- The search does not tell names apart that compare equal. -/
theorem coldSearch_congr {v : Fs.Volume} {clus : Nat} (htidy : TidyDir v clus)
    {name name' : List UInt8} (hname : name ≠ []) (hsame : ∀ x, sameName name' x = sameName name x)
    {x : Option Found} (h : coldSearch v clus name = .ok x) : coldSearch v clus name' = .ok x := by
  unfold coldSearch at h
  split at h
  · cases h
  · rename_i r hr
    obtain ⟨-, hcold⟩ := searchDir_cold htidy hname hsame rfl
      (by decide : Fs.attrDirectory &&& Fs.attrDirectory ≠ 0) rfl (fun _ ↦ rfl) hr
    rw [hcold]
    exact h

/-! ### Where the entries stand -/

variable {S α : Type} {v : Fs.Volume} {c c' : Cache S} {st st' : Store S}

/-- What a search says of an entry. -/
def entryFound (d : Ecache.Dirent S) : Found := ⟨d.attr, d.firstClus, d.fileSize, d.off⟩

/-- The entry stands at a place: the names of its directories and its own lead there, and there is
what the slot holds. -/
inductive Stands (v : Fs.Volume) (c : Cache S) : Ent S → Place → Prop where
  | root : Stands v c .root []
  | entry {s : S} {p : Ent S} {place : Place} (valid : (c.ent (.entry s)).valid = 1)
      (parent : (c.ent (.entry s)).parent = some p) (up : Stands v c p place)
      (dir : Place.isDir place = true)
      (found : coldSearch v (Place.clus v place) (c.ent (.entry s)).filename =
        .ok (some (entryFound (c.ent (.entry s))))) :
      Stands v c (.entry s) (entryFound (c.ent (.entry s)) :: place)

/-- Where an entry stands is a place. -/
theorem Stands.isPlace {e : Ent S} {place : Place} (h : Stands v c e place) : IsPlace v place := by
  induction h with
  | root => exact .root
  | entry valid parent up dir found ih => exact .entry ih dir found

/-- An entry stands at one place. -/
theorem Stands.unique {e : Ent S} {place place' : Place} (h : Stands v c e place)
    (h' : Stands v c e place') : place' = place := by
  induction h generalizing place' with
  | root =>
    cases h'
    rfl
  | entry valid parent up dir found ih =>
    cases h' with
    | entry valid' parent' up' dir' found' =>
      rw [parent] at parent'
      obtain rfl := Option.some.inj parent'
      rw [ih up']

/-- The root as the volume has it. -/
structure HasRoot (v : Fs.Volume) (c : Cache S) : Prop where
  valid : (c.ent .root).valid = 1
  clus : (c.ent .root).firstClus = v.geom.rootClus
  dir : (c.ent .root).isDir = true

/-- An entry that stands is valid. -/
theorem Stands.valid {e : Ent S} {place : Place} (hroot : HasRoot v c) (h : Stands v c e place) :
    (c.ent e).valid = 1 := by
  cases h with
  | root => exact hroot.valid
  | entry valid => exact valid

/-- Whether a place is a directory. -/
theorem Stands.isDir {e : Ent S} {place : Place} (hroot : HasRoot v c) (h : Stands v c e place) :
    Place.isDir place = (c.ent e).isDir := by
  cases h with
  | root => exact hroot.dir.symm
  | entry => rfl

/-- The first cluster of a place. -/
theorem Stands.clus {e : Ent S} {place : Place} (hroot : HasRoot v c) (h : Stands v c e place) :
    Place.clus v place = (c.ent e).firstClus := by
  cases h with
  | root => exact hroot.clus.symm
  | entry => rfl

/-- The entries are the same but for their counts, and for the clusters that removed ones give
up. -/
structure Steady (c c' : Cache S) : Prop where
  live : ∀ e, (c.ent e).valid = 1 → ∃ n, c'.ent e = { c.ent e with ref := n }
  valid : ∀ e, (c'.ent e).valid = (c.ent e).valid
  attr : ∀ e, (c'.ent e).attr = (c.ent e).attr
  clus : ∀ e, (c'.ent e).firstClus = (c.ent e).firstClus ∨ (c'.ent e).firstClus = 0

/-- Steady steps compose. -/
theorem Steady.trans {c'' : Cache S} (h : Steady c c') (h' : Steady c' c'') : Steady c c'' := by
  refine ⟨fun e he ↦ ?_, fun e ↦ ?_, fun e ↦ ?_, fun e ↦ ?_⟩
  · obtain ⟨n, hn⟩ := h.live e he
    obtain ⟨m, hm⟩ := h'.live e (by rw [h.valid, he])
    refine ⟨m, ?_⟩
    rw [hm, hn]
  · rw [h'.valid, h.valid]
  · rw [h'.attr, h.attr]
  · rcases h'.clus e with heq | hzero
    · rw [heq]
      exact h.clus e
    · exact .inr hzero

/-- Only counts change. -/
theorem Steady.counts (h : ∀ e, ∃ n, c'.ent e = { c.ent e with ref := n }) : Steady c c' := by
  refine ⟨fun e _ ↦ h e, fun e ↦ ?_, fun e ↦ ?_, fun e ↦ ?_⟩
  · obtain ⟨n, hn⟩ := h e
    rw [hn]
  · obtain ⟨n, hn⟩ := h e
    rw [hn]
  · obtain ⟨n, hn⟩ := h e
    left
    rw [hn]

/-- A steady step keeps where an entry stands. -/
theorem Stands.steady {e : Ent S} {place : Place} (hsteady : Steady c c') (h : Stands v c e place) :
    Stands v c' e place := by
  induction h with
  | root => exact .root
  | @entry s p place valid parent up dir found ih =>
    obtain ⟨n, hn⟩ := hsteady.live _ valid
    have hfound : entryFound (c'.ent (.entry s)) = entryFound (c.ent (.entry s)) := by
      rw [hn]
      rfl
    rw [← hfound]
    apply Stands.entry _ _ ih dir
    · rw [hfound, hn]
      exact found
    · rw [hn]
      exact valid
    · rw [hn]
      exact parent

/-- A slot changes that is nobody's parent. Of the other entries only the counts change. -/
theorem Stands.rest {s : S} (hrest : ∀ e, e ≠ .entry s → ∃ n, c'.ent e = { c.ent e with ref := n })
    (hchild : ∀ t, (c.ent (.entry t)).valid = 1 → (c.ent (.entry t)).parent ≠ some (.entry s))
    {e : Ent S} {place : Place} (h : Stands v c e place) (he : e ≠ .entry s) :
    Stands v c' e place := by
  induction h with
  | root => exact .root
  | @entry t p place valid parent up dir found ih =>
    have hp : p ≠ .entry s := by
      rintro rfl
      exact hchild t valid parent
    obtain ⟨n, hn⟩ := hrest _ he
    have hfound : entryFound (c'.ent (.entry t)) = entryFound (c.ent (.entry t)) := by
      rw [hn]
      rfl
    rw [← hfound]
    apply Stands.entry _ _ (ih hp) dir
    · rw [hfound, hn]
      exact found
    · rw [hn]
      exact valid
    · rw [hn]
      exact parent

/-- No clusters to free start there. -/
def NoClusters (n : Nat) : Prop := n < 2 ∨ Fs.fat32Eoc ≤ n

/-- What a filled slot holds: an entry that stands at a place and needs no write-back, or a removed
one that owns nothing. -/
inductive Fits (v : Fs.Volume) (c : Cache S) (s : S) : Prop where
  | stands (place : Place) (clean : (c.ent (.entry s)).dirty = false)
      (stands : Stands v c (.entry s) place)
  | gone (valid : (c.ent (.entry s)).valid ≠ 1) (dir : (c.ent (.entry s)).isDir = false)
      (clus : NoClusters (c.ent (.entry s)).firstClus)

/-- A steady step keeps what fits. -/
theorem Fits.steady {s : S} (hsteady : Steady c c') (h : Fits v c s) : Fits v c' s := by
  cases h with
  | stands place clean stands =>
    apply Fits.stands place _ (stands.steady hsteady)
    cases stands with
    | entry valid =>
      obtain ⟨n, hn⟩ := hsteady.live _ valid
      rw [hn]
      exact clean
  | gone valid dir clus =>
    apply Fits.gone
    · rw [hsteady.valid]
      exact valid
    · unfold Ecache.Dirent.isDir at dir ⊢
      rw [hsteady.attr]
      exact dir
    · rcases hsteady.clus (.entry s) with heq | hzero
      · rw [heq]
        exact clus
      · rw [hzero]
        exact .inl (by decide)

/-- A slot fits when the others are as before. -/
theorem Fits.rest {s t : S}
    (hrest : ∀ e, e ≠ .entry s → ∃ n, c'.ent e = { c.ent e with ref := n })
    (hchild : ∀ t, (c.ent (.entry t)).valid = 1 → (c.ent (.entry t)).parent ≠ some (.entry s))
    (h : Fits v c t) (ht : t ≠ s) : Fits v c' t := by
  have hne : Ent.entry t ≠ .entry s := by simpa using ht
  obtain ⟨n, hn⟩ := hrest _ hne
  cases h with
  | stands place clean stands =>
    apply Fits.stands place _ (stands.rest hrest hchild hne)
    rw [hn]
    exact clean
  | gone valid dir clus =>
    apply Fits.gone
    · rw [hn]
      exact valid
    · rw [hn]
      exact dir
    · rw [hn]
      exact clus

end Xv6K210.Mount
