import Xv6K210.Base.Runs
import Xv6K210.Buffer.Clock

/-!
# One process

For one process that releases what it has locked, the cache is the array of the
sectors.
-/

namespace Xv6K210.Buffer

open Xv6K210.Base Prog Function

variable {B D : Type} [DecidableEq B] {c c' : Bcache B D} {devOf : Nat → Nat}

/-- Between the calls: every buffer is on a list, and what is valid is what the disk holds. The
device of a sector is `devOf` of its number. -/
structure Coherent (devOf : Nat → Nat) (c : Bcache B D) : Prop where
  lists : Lists (fun _ ↦ False) c
  placed : Placed c
  dev : ∀ b, 0 < (c.buf b).refcnt ∨ (c.buf b).valid = true →
    (c.buf b).dev = devOf (c.buf b).blockno
  data : ∀ b, (c.buf b).valid = true → (c.buf b).data = c.disk (c.buf b).blockno
  held : ∀ b, (c.buf b).locked = true → 0 < (c.buf b).refcnt

omit [DecidableEq B] in
/-- Two buffers that are in use or have contents cache different sectors. -/
theorem Coherent.unique (h : Coherent devOf c) {a b : B}
    (ha : 0 < (c.buf a).refcnt ∨ (c.buf a).valid = true)
    (hb : 0 < (c.buf b).refcnt ∨ (c.buf b).valid = true)
    (hblock : (c.buf a).blockno = (c.buf b).blockno) : a = b := by
  obtain ⟨i, hai⟩ := (h.lists.cover a).resolve_left id
  obtain ⟨j, hbj⟩ := (h.lists.cover b).resolve_left id
  have hij : i = j := by
    rw [← h.placed.home a i hai ha, ← h.placed.home b j hbj hb, hblock]
  subst hij
  apply h.placed.unique hai hbj ha hb _ hblock
  rw [h.dev a ha, h.dev b hb, hblock]

/-- The buffer may come into use: it is in the bucket of its block, under the device of the sector,
and no buffer before it has the block. -/
structure Fit (devOf : Nat → Nat) (c : Bcache B D) (b : B) : Prop where
  home : ∀ i, b ∈ (c.bucket i).list → hash (c.buf b).blockno = i
  dev : (c.buf b).dev = devOf (c.buf b).blockno
  first : ∀ i a, Before (c.bucket i).list a b →
    ¬ ((c.buf a).dev = (c.buf b).dev ∧ (c.buf a).blockno = (c.buf b).blockno)

omit [DecidableEq B] in
private theorem Coherent.fit (h : Coherent devOf c) {b : B}
    (hb : 0 < (c.buf b).refcnt ∨ (c.buf b).valid = true) : Fit devOf c b := by
  refine ⟨fun i hi ↦ h.placed.home b i hi hb, h.dev b hb, ?_⟩
  rintro i a hbefore ⟨hdev, hblock⟩
  obtain ⟨hvalid, hzero⟩ := h.placed.first i a b hbefore hdev hblock
  rw [hvalid, hzero] at hb
  simp at hb

/-- One buffer changes, but not its block. -/
theorem Coherent.setBuf (h : Coherent devOf c) {b : B} {x : Buf D} {disk : Nat → D}
    (hkey : x.dev = (c.buf b).dev ∧ x.blockno = (c.buf b).blockno)
    (hfit : 0 < x.refcnt ∨ x.valid = true → Fit devOf c b)
    (hdisk : ∀ n, disk n = c.disk n ∨
      (n = x.blockno ∧ (0 < (c.buf b).refcnt ∨ (c.buf b).valid = true)))
    (hdata : x.valid = true → x.data = disk x.blockno)
    (hheld : x.locked = true → 0 < x.refcnt)
    (hbit : x.referenced = true →
      (c.buf b).referenced = true ∨ ∀ i, b ∈ (c.bucket i).list → hash (c.buf b).blockno = i) :
    Coherent devOf { c with buf := update c.buf b x, disk } := by
  set c' : Bcache B D := { c with buf := update c.buf b x, disk } with hc'
  have hself : c'.buf b = x := update_self _ _ _
  have hother : ∀ a, a ≠ b → c'.buf a = c.buf a := fun a ha ↦ update_of_ne ha _ _
  have hdev : ∀ a, (c'.buf a).dev = (c.buf a).dev := by
    intro a
    by_cases ha : a = b
    · rw [ha, hself, hkey.1]
    · rw [hother a ha]
  have hblock : ∀ a, (c'.buf a).blockno = (c.buf a).blockno := by
    intro a
    by_cases ha : a = b
    · rw [ha, hself, hkey.2]
    · rw [hother a ha]
  have hold : ∀ a, 0 < (c'.buf a).refcnt ∨ (c'.buf a).valid = true → Fit devOf c a := by
    intro a
    by_cases ha : a = b
    · rw [ha, hself]
      exact hfit
    · rw [hother a ha]
      exact h.fit
  refine ⟨⟨h.lists.nodup, h.lists.apart, h.lists.cover, h.lists.off, h.lists.hand⟩,
    ⟨?_, ?_, ?_⟩, ?_, ?_, ?_⟩
  · intro a i ha hua
    rw [hblock]
    exact (hold a hua).home i ha
  · intro a i ha hba
    rw [hblock]
    by_cases hab : a = b
    · rw [hab, hself] at hba
      rw [hab] at ha ⊢
      exact (hbit hba).elim (h.placed.bit b i ha) fun hhome ↦ hhome i ha
    · rw [hother a hab] at hba
      exact h.placed.bit a i ha hba
  · intro i a a' hbefore hsame hsame'
    rw [hdev, hdev] at hsame
    rw [hblock, hblock] at hsame'
    have hno : ¬ (0 < (c'.buf a').refcnt ∨ (c'.buf a').valid = true) :=
      fun hu ↦ (hold a' hu).first i a hbefore ⟨hsame, hsame'⟩
    rw [not_or, Bool.not_eq_true] at hno
    exact ⟨hno.2, by omega⟩
  · intro a hua
    rw [hdev, hblock]
    exact (hold a hua).dev
  · intro a hva
    by_cases ha : a = b
    · rw [ha, hself]
      apply hdata
      rw [← hself, ← ha]
      exact hva
    · rw [hother a ha] at hva ⊢
      rcases hdisk (c.buf a).blockno with hsame | ⟨hn, hub⟩
      · rw [h.data a hva]
        exact hsame.symm
      · rw [hkey.2] at hn
        exact absurd (h.unique (.inr hva) hub hn) ha
  · intro a hla
    by_cases ha : a = b
    · rw [ha, hself] at hla ⊢
      exact hheld hla
    · rw [hother a ha] at hla ⊢
      exact h.held a hla

/-! ### `bget` -/

omit [DecidableEq B] in
/-- Marks keep the cache coherent. -/
theorem Coherent.marked (h : Coherent devOf c) (hm : Marked c c')
    (hl : Lists (fun _ ↦ False) c')
    (hlist : ∀ i, (c'.bucket i).list = (c.bucket i).list) : Coherent devOf c' := by
  refine ⟨hl, h.placed.marked hm fun i ↦ by rw [hlist], ?_, ?_, ?_⟩
  · intro b
    rw [hm.refcnt, hm.valid, hm.dev, hm.blockno]
    exact h.dev b
  · intro b
    rw [hm.valid, hm.data, hm.blockno, hm.disk]
    exact h.data b
  · intro b
    rw [hm.locked, hm.refcnt]
    exact h.held b

omit [DecidableEq B] in
/-- A scan keeps the cache coherent. -/
theorem Scanned.coherent {i : Fin nbucket} (h : Scanned i c c') (hc : Coherent devOf c) :
    Coherent devOf c' := by
  apply hc.marked h.marked (h.lists hc.lists)
  intro j
  by_cases hj : j = i
  · rw [hj, h.list]
  · rw [h.other j hj]

/-- The search for a victim passes over buckets whose buffers are all in use. -/
theorem findVictim_spec [Fintype B] (is : List (Fin nbucket)) (h : Coherent devOf c) :
    Ensures (findVictim (Fintype.card B) is) c fun r c' ↦
      match r with
      | none => Coherent devOf c' ∧ Marked c c' ∧
          ∀ i ∈ is, ∀ x ∈ (c.bucket i).list, (c.buf x).refcnt ≠ 0
      | some b => ∃ i c1, Coherent devOf c1 ∧ Marked c c1 ∧
          (∀ j, (c1.bucket j).list = (c.bucket j).list) ∧ b ∈ (c1.bucket i).list ∧
            (c1.buf b).refcnt = 0 ∧ Detached i b c1 c' := by
  induction is generalizing c with
  | nil => exact ensures_pure.mpr ⟨h, .refl c, fun i hi ↦ absurd hi List.not_mem_nil⟩
  | cons i is ih =>
    rw [findVictim, ensures_bind]
    apply (detach_spec i h.lists).mono
    intro r c1 h1
    cases r with
    | some b =>
      exact ensures_pure.mpr ⟨i, c, h, .refl c, fun _ ↦ rfl, h1⟩
    | none =>
      obtain ⟨hs, hused⟩ := h1
      have hlist : ∀ j, (c1.bucket j).list = (c.bucket j).list := by
        intro j
        by_cases hj : j = i
        · rw [hj, hs.list]
        · rw [hs.other j hj]
      apply (ih (hs.coherent h)).mono
      intro r c2 h2
      cases r with
      | some b =>
        obtain ⟨j, c3, hc3, hm3, hlist3, hrest⟩ := h2
        exact ⟨j, c3, hc3, hs.marked.trans hm3, fun k ↦ (hlist3 k).trans (hlist k), hrest⟩
      | none =>
        obtain ⟨hc2, hm2, hused2⟩ := h2
        refine ⟨hc2, hs.marked.trans hm2, fun j hj x hx ↦ ?_⟩
        rcases List.mem_cons.mp hj with rfl | hj
        · exact hused x hx
        · rw [← hs.marked.refcnt]
          apply hused2 j hj
          rw [hlist]
          exact hx

/-- Every bucket is searched. -/
theorem mem_bucketsFrom (i j : Fin nbucket) : j ∈ bucketsFrom i := by
  unfold bucketsFrom
  rw [List.mem_map]
  have hi := i.isLt
  have hj := j.isLt
  unfold nbucket at hi hj
  refine ⟨(j + (13 - i)) % 13, List.mem_range.mpr (Nat.mod_lt _ (by decide)), ?_⟩
  apply Fin.ext
  change (i.val + (j.val + (13 - i.val)) % 13) % 13 = j.val
  omega

/-- A victim becomes the cache of a block that no buffer of the bucket has. -/
theorem insert_coherent {i : Fin nbucket} {b : B} {dev blockno : Nat} (h : Coherent devOf c)
    (hb : b ∈ (c.bucket i).list) (hd : Detached i b c c')
    (hdev : dev = devOf blockno)
    (hfresh : ∀ x ∈ (c.bucket (hash blockno)).list,
      ¬ ((c.buf x).dev = dev ∧ (c.buf x).blockno = blockno)) :
    Coherent devOf (c'.inserted b dev blockno) := by
  have hlists := hd.lists h.lists hb
  have hother := fun {x} (hx : x ≠ b) ↦ inserted_other c' dev blockno hx
  have hm := hd.marked
  refine ⟨?_, ?_, ?_, ?_, ?_⟩
  · exact hlists.inserted id dev blockno
  · apply (h.placed.marked hm hd.sublist).inserted
    · exact fun j ↦ hlists.off b j (.inr rfl)
    · intro x hx
      rw [hm.dev, hm.blockno]
      exact fun hkey ↦ absurd hkey (hfresh x ((hd.sublist _).subset hx))
  · intro x
    by_cases hx : x = b
    · rw [hx, inserted_self]
      exact fun _ ↦ hdev
    · rw [hother hx, hm.refcnt, hm.valid, hm.dev, hm.blockno]
      exact h.dev x
  · intro x
    change (_ : Bool) = true → _ = c'.disk _
    by_cases hx : x = b
    · rw [hx, inserted_self]
      intro hvalid
      cases hvalid
    · rw [hother hx, hm.valid, hm.data, hm.blockno, hm.disk]
      exact h.data x
  · intro x
    by_cases hx : x = b
    · rw [hx, inserted_self]
      exact fun _ ↦ Nat.one_pos
    · rw [hother hx, hm.locked, hm.refcnt]
      exact h.held x

/-- `acquiresleep` of a buffer that is in use. -/
theorem acquiresleep_coherent (h : Coherent devOf c) {b : B} (hb : 0 < (c.buf b).refcnt) :
    Ensures (acquiresleep b) c fun _ c' ↦ Coherent devOf c' ∧ c'.disk = c.disk ∧
      (c'.buf b).dev = (c.buf b).dev ∧ (c'.buf b).blockno = (c.buf b).blockno ∧
        (c'.buf b).locked = true := by
  unfold acquiresleep
  rw [ensures_bind, ensures_get, ensures_ite]
  refine ⟨fun _ ↦ ensures_halt, fun _ ↦ ?_⟩
  unfold Buffer.setBuf
  rw [ensures_modify]
  refine ⟨?_, rfl, ?_⟩
  · exact h.setBuf ⟨rfl, rfl⟩ (fun hused ↦ h.fit hused) (fun _ ↦ .inl rfl) (h.data b) (fun _ ↦ hb)
      .inl
  · dsimp only
    rw [update_self]
    exact ⟨rfl, rfl, rfl⟩

/-- `bget` returns a locked buffer for the block. -/
theorem bget_coherent [Fintype B] (h : Coherent devOf c) (blockno : Nat) :
    Ensures (bget (Fintype.card B) (devOf blockno) blockno) c fun b c' ↦
      Coherent devOf c' ∧ c'.disk = c.disk ∧ (c'.buf b).blockno = blockno ∧
        (c'.buf b).locked = true := by
  unfold bget
  apply (lookup_spec h.lists (devOf blockno) blockno).bind
  intro r c1 h1
  cases r with
  | some b =>
    obtain ⟨hb, hdev, hblock, hfirst, hc1⟩ := h1
    have hself : c1.buf b =
      { c.buf b with refcnt := (c.buf b).refcnt + 1, referenced := true } := by
      rw [hc1]
      exact update_self _ _ _
    have hhome : ∀ i, b ∈ (c.bucket i).list → hash (c.buf b).blockno = i := by
      intro i hi
      rw [hblock]
      exact h.lists.apart b _ i hb hi
    have hused : Coherent devOf c1 := by
      rw [hc1]
      refine Coherent.setBuf h ⟨rfl, rfl⟩ (fun _ ↦ ?_) (fun _ ↦ .inl rfl) (h.data b)
        (fun _ ↦ Nat.succ_pos _) (fun _ ↦ .inr hhome)
      refine ⟨hhome, by rw [hdev, hblock], fun i a hbefore ↦ ?_⟩
      · have hi : i = hash blockno := by
          apply h.lists.apart b i _ _ hb
          exact hbefore.subset (List.mem_cons_of_mem a List.mem_cons_self)
        subst hi
        rw [hdev, hblock]
        exact hfirst a hbefore
    dsimp only
    apply (acquiresleep_coherent hused (b := b) (by rw [hself]; exact Nat.succ_pos _)).bind
    rintro _ c2 ⟨h2, hdisk, -, hblock2, hlocked⟩
    refine ensures_pure.mpr ⟨h2, ?_, ?_, hlocked⟩
    · rw [hdisk, hc1]
    · rw [hblock2, hself]
      exact hblock
  | none =>
    obtain ⟨rfl, hfresh⟩ := h1
    dsimp only
    apply (findVictim_spec (bucketsFrom (hash blockno)) h).bind
    intro r c1 h1
    cases r with
    | none => exact ensures_halt
    | some b =>
      obtain ⟨i, c2, h2, hm, hlist, hb, -, hd⟩ := h1
      dsimp only
      apply (insert_spec c1 b (devOf blockno) blockno).bind
      rintro _ c3 rfl
      have h3 : Coherent devOf (c1.inserted b (devOf blockno) blockno) := by
        apply insert_coherent h2 hb hd rfl
        intro x hx
        rw [hlist] at hx
        rw [hm.dev, hm.blockno]
        exact hfresh x hx
      apply (acquiresleep_coherent h3 (b := b) (by rw [inserted_self]; exact Nat.one_pos)).bind
      rintro _ c4 ⟨h4, hdisk, -, hblock4, hlocked⟩
      refine ensures_pure.mpr ⟨h4, ?_, ?_, hlocked⟩
      · rw [hdisk]
        change c1.disk = c.disk
        rw [hd.marked.disk, hm.disk]
      · rw [hblock4, inserted_self]

/-! ### The calls -/

/-- What `bread` returns is what the disk holds. -/
theorem bread_coherent [Fintype B] (h : Coherent devOf c) (blockno : Nat) :
    Ensures (bread (Fintype.card B) (devOf blockno) blockno) c fun b c' ↦
      Coherent devOf c' ∧ c'.disk = c.disk ∧ (c'.buf b).data = c.disk blockno := by
  unfold bread
  apply (bget_coherent h blockno).bind
  rintro b c1 ⟨h1, hdisk, hblock, hlocked⟩
  unfold fill diskRead Buffer.setBuf
  simp only [ensures_bind, ensures_get, ensures_doIf, ensures_modify, ensures_pure]
  refine ⟨fun _ ↦ ?_, fun hvalid ↦ ⟨h1, hdisk, ?_⟩⟩
  · rw [update_self, update_idem]
    refine ⟨?_, hdisk, ?_⟩
    · exact h1.setBuf ⟨rfl, rfl⟩ (fun _ ↦ h1.fit (.inl (h1.held b hlocked))) (fun _ ↦ .inl rfl)
        (fun _ ↦ rfl) (h1.held b) .inl
    · dsimp only
      rw [update_self]
      dsimp only
      rw [hdisk, hblock]
  · rw [h1.data b (by simpa using hvalid), hdisk, hblock]

/-- A change that is written reaches the disk. -/
theorem modifyWrite_coherent (h : Coherent devOf c) (b : B) (d : D) :
    Ensures (modifyWrite b d) c fun _ c' ↦ Coherent devOf c' ∧
      c'.disk = update c.disk (c.buf b).blockno d := by
  unfold modifyWrite bwrite diskWrite Buffer.setBuf
  simp only [ensures_bind, ensures_get, ensures_modify, ensures_ite, update_self]
  refine ⟨fun _ ↦ ensures_halt, fun hlocked ↦ ⟨?_, trivial⟩⟩
  have hused : 0 < (c.buf b).refcnt := h.held b (by simpa using hlocked)
  refine Coherent.setBuf h ⟨rfl, rfl⟩ (fun _ ↦ h.fit (.inl hused)) (fun n ↦ ?_) (fun _ ↦ ?_)
    (h.held b) .inl
  · by_cases hn : n = (c.buf b).blockno
    · exact .inr ⟨hn, .inl hused⟩
    · exact .inl (update_of_ne hn _ _)
  · exact (update_self (c.buf b).blockno d c.disk).symm

/-- `brelse`. -/
theorem brelse_coherent (h : Coherent devOf c) (b : B) :
    Ensures (brelse b) c fun _ c' ↦ Coherent devOf c' ∧ c'.disk = c.disk := by
  unfold brelse releasesleep unref Buffer.setBuf
  simp only [ensures_bind, ensures_get, ensures_modify, ensures_ite]
  refine ⟨fun _ ↦ ensures_halt, fun hlocked ↦ ⟨?_, trivial⟩⟩
  have hused : 0 < (c.buf b).refcnt := h.held b (by simpa using hlocked)
  rw [update_self, update_idem]
  refine Coherent.setBuf h ⟨rfl, rfl⟩ (fun _ ↦ h.fit (.inl hused)) (fun _ ↦ .inl rfl) (h.data b) ?_
    fun _ ↦ .inr (h.fit (.inl hused)).home
  intro hno
  cases hno

omit [DecidableEq B] in
/-- Some buffers lose their contents, and what the others hold is what the disk holds. -/
theorem Coherent.blank (h : Coherent devOf c) (hbucket : c'.bucket = c.bucket)
    (hsame : ∀ b, c'.buf b = { c.buf b with valid := (c'.buf b).valid })
    (hvalid : ∀ b, (c'.buf b).valid = true → (c.buf b).valid = true)
    (hdata : ∀ b, (c'.buf b).valid = true → (c'.buf b).data = c'.disk (c'.buf b).blockno) :
    Coherent devOf c' := by
  have hused : ∀ b, 0 < (c'.buf b).refcnt ∨ (c'.buf b).valid = true →
      0 < (c.buf b).refcnt ∨ (c.buf b).valid = true := by
    intro b hu
    rw [hsame b] at hu
    exact hu.imp_right (hvalid b)
  have hl := h.lists
  refine ⟨⟨?_, ?_, ?_, ?_, ?_⟩, ⟨?_, ?_, ?_⟩, ?_, hdata, ?_⟩
  · rw [hbucket]
    exact hl.nodup
  · rw [hbucket]
    exact hl.apart
  · rw [hbucket]
    exact hl.cover
  · rw [hbucket]
    exact hl.off
  · rw [hbucket]
    exact hl.hand
  · intro b j hb hu
    rw [hbucket] at hb
    rw [hsame b]
    exact h.placed.home b j hb (hused b hu)
  · intro b j hb hbit
    rw [hbucket] at hb
    rw [hsame b] at hbit ⊢
    exact h.placed.bit b j hb hbit
  · intro j a b hbefore hdev hblock
    rw [hbucket] at hbefore
    rw [hsame a, hsame b] at hdev hblock
    obtain ⟨hno, hzero⟩ := h.placed.first j a b hbefore hdev hblock
    refine ⟨?_, ?_⟩
    · by_contra hv
      rw [hvalid b (by simpa using hv)] at hno
      cases hno
    · rw [hsame b]
      exact hzero
  · intro b hu
    rw [hsame b]
    exact h.dev b (hused b hu)
  · intro b hlocked
    rw [hsame b] at hlocked ⊢
    exact h.held b hlocked

omit [DecidableEq B] in
/-- The buffers of the device that nobody refers to lose their contents. -/
structure Blanked (dev : Nat) (is : List (Fin nbucket)) (c c' : Bcache B D) : Prop where
  bucket : c'.bucket = c.bucket
  disk : c'.disk = c.disk
  same : ∀ b, c'.buf b = { c.buf b with valid := (c'.buf b).valid }
  valid : ∀ b, (c'.buf b).valid = true → (c.buf b).valid = true
  left : ∀ b i, b ∈ (c.bucket i).list → i ∉ is → (c.buf b).dev = dev → (c.buf b).refcnt = 0 →
    (c'.buf b).valid = false

/-- What `binvalidate` blanks. -/
theorem binvalidate_blanked (dev : Nat) (c : Bcache B D) :
    Ensures (binvalidate dev) c fun _ c' ↦ Blanked dev [] c c' := by
  unfold binvalidate
  apply ensures_forEach (fun is c' ↦ Blanked dev is c c')
  · intro i is c1 h1
    unfold invalidateBucket
    rw [ensures_modify]
    set f : B → Buf D := fun b ↦
      if b ∈ (c1.bucket i).list ∧ (c1.buf b).dev = dev ∧ (c1.buf b).refcnt = 0 then
        { c1.buf b with valid := false } else c1.buf b with hf
    have hsame : ∀ b, f b = { c1.buf b with valid := (f b).valid } := by
      intro b
      rw [hf]
      dsimp only
      split <;> rfl
    have hvalid : ∀ b, (f b).valid = true → (c1.buf b).valid = true := by
      intro b
      rw [hf]
      dsimp only
      split
      · intro hno
        cases hno
      · exact id
    refine ⟨h1.bucket, h1.disk, fun b ↦ ?_, fun b hv ↦ h1.valid b (hvalid b hv), ?_⟩
    · change f b = _
      rw [hsame b, h1.same b]
    · intro b j hb hj hdev hzero
      change (f b).valid = false
      by_contra hv
      rw [Bool.not_eq_false] at hv
      by_cases hji : j = i
      · subst hji
        have hin : b ∈ (c1.bucket j).list ∧ (c1.buf b).dev = dev ∧ (c1.buf b).refcnt = 0 := by
          rw [h1.bucket, h1.same b]
          exact ⟨hb, hdev, hzero⟩
        rw [hf] at hv
        dsimp only at hv
        rw [if_pos hin] at hv
        cases hv
      · have hno := h1.left b j hb (by simp [hj, hji]) hdev hzero
        rw [hvalid b hv] at hno
        cases hno
  · exact ⟨rfl, rfl, fun _ ↦ rfl, fun _ ↦ id, fun _ i _ hi ↦ absurd (List.mem_finRange i) hi⟩

/-- `binvalidate`. -/
theorem binvalidate_coherent (h : Coherent devOf c) (dev : Nat) :
    Ensures (binvalidate dev) c fun _ c' ↦ Coherent devOf c' ∧ c'.disk = c.disk := by
  apply (binvalidate_blanked dev c).mono
  intro _ c' hblank
  refine ⟨h.blank hblank.bucket hblank.same hblank.valid fun b hv ↦ ?_, hblank.disk⟩
  rw [hblank.disk, hblank.same b]
  exact h.data b (hblank.valid b hv)

/-! ### When the buffers run out -/

omit [DecidableEq B] in
/-- A sequence halts in its first or in its second part. -/
theorem bind_eq_error {α β : Type} {x : Bio B D α} {f : α → Bio B D β} {msg : String}
    (h : (x >>= f) c = .error msg) :
    x c = .error msg ∨ ∃ a c', x c = .ok (a, c') ∧ f a c' = .error msg := by
  change (x c >>= fun p ↦ f p.1 p.2) = _ at h
  cases hx : x c with
  | error e =>
    rw [hx] at h
    cases h
    exact .inl rfl
  | ok p =>
    rw [hx] at h
    exact .inr ⟨p.1, p.2, rfl, h⟩

/-- The scan of a bucket does not halt. -/
theorem clockLoop_ne_error (i : Fin nbucket) (n : Nat) (c : Bcache B D) (msg : String) :
    clockLoop i n c ≠ .error msg := by
  induction n generalizing c with
  | zero =>
    intro h
    cases h
  | succ n ih =>
    intro h
    rw [clockLoop] at h
    rcases bind_eq_error h with h | ⟨c1, _, hget, h⟩
    · cases h
    · cases hget
      cases hscan : (c.bucket i).hand.or (c.bucket i).list.head? with
      | none =>
        rw [hscan] at h
        cases h
      | some b =>
        rw [hscan] at h
        rcases bind_eq_error h with h | ⟨_, c2, -, h⟩
        · cases h
        · split at h
          next => exact ih c2 h
          next =>
            split at h
            next =>
              rcases bind_eq_error h with h | ⟨_, c3, -, h⟩
              · cases h
              · exact ih c3 h
            next => cases h

private theorem findVictim_ne_error (nbuf : Nat) (is : List (Fin nbucket)) (c : Bcache B D)
    (msg : String) : findVictim nbuf is c ≠ .error msg := by
  induction is generalizing c with
  | nil =>
    intro h
    cases h
  | cons i is ih =>
    intro h
    rw [findVictim] at h
    rcases bind_eq_error h with h | ⟨r, c1, -, h⟩
    · unfold detach at h
      rcases bind_eq_error h with h | ⟨r, c1, -, h⟩
      · exact clockLoop_ne_error i _ c msg h
      · cases r with
        | none => cases h
        | some b => cases h
    · cases r with
      | none => exact ih c1 h
      | some b => cases h

private theorem acquiresleep_error {b : B} {msg : String} (h : acquiresleep b c = .error msg) :
    msg = "acquiresleep" ∧ (c.buf b).locked = true := by
  unfold acquiresleep at h
  rcases bind_eq_error h with h | ⟨c1, _, hget, h⟩
  · cases h
  · cases hget
    split at h
    next hlocked =>
      cases h
      exact ⟨rfl, hlocked⟩
    next => cases h

private theorem lookup_ne_error (dev blockno : Nat) (c : Bcache B D) (msg : String) :
    lookup dev blockno c ≠ .error msg := by
  intro h
  unfold lookup at h
  rcases bind_eq_error h with h | ⟨c1, _, hget, h⟩
  · cases h
  · cases hget
    cases hfound : (c.bucket (hash blockno)).list.find? fun b ↦ (c.buf b).holds dev blockno with
    | none =>
      rw [hfound] at h
      cases h
    | some b =>
      rw [hfound] at h
      cases h

/-- A locked buffer is filled without a panic. -/
theorem fill_ne_error (b : B) (c : Bcache B D) (msg : String) : fill b c ≠ .error msg := by
  intro h
  unfold fill Prog.doIf at h
  rcases bind_eq_error h with h | ⟨c1, _, hget, h⟩
  · cases h
  · cases hget
    split at h
    next => cases h
    next => cases h

/-- `bget` halts when all buffers are in use, or where the process itself holds the buffer of the
block. -/
theorem bget_error [Fintype B] (h : Coherent devOf c) {dev blockno : Nat} {msg : String}
    (herror : bget (Fintype.card B) dev blockno c = .error msg) :
    (msg = "bget: no buffers" ∧ ∀ b, 0 < (c.buf b).refcnt) ∨
      (msg = "acquiresleep" ∧ ∃ b, (c.buf b).locked = true ∧ (c.buf b).dev = dev ∧
        (c.buf b).blockno = blockno) := by
  unfold bget at herror
  rcases bind_eq_error herror with hlookup | ⟨r, c1, hlookup, herror⟩
  · exact absurd hlookup (lookup_ne_error dev blockno c msg)
  · have hspec := (lookup_spec h.lists dev blockno).of_ok r c1 hlookup
    cases r with
    | some b =>
      obtain ⟨-, hdev, hblock, -, hc1⟩ := hspec
      rcases bind_eq_error herror with hacq | ⟨_, _, -, hpure⟩
      · obtain ⟨hmsg, hlocked⟩ := acquiresleep_error hacq
        rw [hc1] at hlocked
        dsimp only at hlocked
        rw [update_self] at hlocked
        exact .inr ⟨hmsg, b, hlocked, hdev, hblock⟩
      · cases hpure
    | none =>
      obtain ⟨rfl, -⟩ := hspec
      rcases bind_eq_error herror with hfind | ⟨r, c2, hfind, herror⟩
      · exact absurd hfind (findVictim_ne_error _ _ _ _)
      · have hvictim := (findVictim_spec (bucketsFrom (hash blockno)) h).of_ok r c2 hfind
        cases r with
        | none =>
          obtain ⟨-, -, hused⟩ := hvictim
          left
          refine ⟨?_, fun b ↦ ?_⟩
          · cases herror
            rfl
          · obtain ⟨i, hi⟩ := (h.lists.cover b).resolve_left id
            exact Nat.pos_of_ne_zero (hused i (mem_bucketsFrom _ i) b hi)
        | some b =>
          -- a victim is not in use, so its lock is free
          obtain ⟨i, c3, h3, -, -, -, hzero, hd⟩ := hvictim
          rcases bind_eq_error herror with hinsert | ⟨_, c4, hinsert, herror⟩
          · cases hinsert
          · have hc4 := (insert_spec c2 b dev blockno).of_ok _ c4 hinsert
            rcases bind_eq_error herror with hacq | ⟨_, _, -, hpure⟩
            · obtain ⟨-, hlocked⟩ := acquiresleep_error hacq
              rw [hc4, inserted_self] at hlocked
              dsimp only at hlocked
              rw [hd.marked.locked] at hlocked
              have hpos := h3.held b hlocked
              omega
            · cases hpure

end Xv6K210.Buffer
