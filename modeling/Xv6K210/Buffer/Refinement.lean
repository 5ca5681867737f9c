import Xv6K210.Buffer.Sequential

/-!
# The array of the sectors

The runs of one process on the cache, against the sectors alone.
-/

namespace Xv6K210.Buffer

open Xv6K210.Base Prog

/-- What the process does. A write is to the sector of the buffer. -/
inductive Op (B D : Type) where
  | bread (dev blockno : Nat)
  | write (b : B) (blockno : Nat) (d : D)
  | brelse (b : B)
  | binvalidate (dev : Nat)

variable {B D : Type} [DecidableEq B]

def Op.perform (nbuf : Nat) : Op B D → Bio B D Unit
  | .bread dev blockno => do
    let _ ← Buffer.bread nbuf dev blockno
    pure ()
  | .write b _ d => modifyWrite b d
  | .brelse b => Buffer.brelse b
  | .binvalidate dev => Buffer.binvalidate dev

/-- The process has the lock of what it writes and releases. -/
def Op.Paired (c : Bcache B D) : Op B D → Prop
  | .bread _ _ => True
  | .write b blockno _ => (c.buf b).locked = true ∧ (c.buf b).blockno = blockno
  | .brelse b => (c.buf b).locked = true
  | .binvalidate _ => True

omit [DecidableEq B] in
instance (c : Bcache B D) (e : Op B D) : Decidable (e.Paired c) :=
  match e with
  | .bread _ _ => inferInstanceAs (Decidable True)
  | .write _ _ _ => inferInstanceAs (Decidable (_ ∧ _))
  | .brelse _ => inferInstanceAs (Decidable (_ = _))
  | .binvalidate _ => inferInstanceAs (Decidable True)

def Step (nbuf : Nat) (c : Bcache B D) (e : Op B D) (c' : Bcache B D) : Prop :=
  e.Paired c ∧ e.perform nbuf c = .ok ((), c')

/-- The array of the sectors after the writes. -/
def replay (disk : Nat → D) : List (Op B D) → Nat → D
  | [] => disk
  | .write _ blockno d :: es => replay (Function.update disk blockno d) es
  | _ :: es => replay disk es

/-- At first the buffers go round the buckets. -/
theorem binit_coherent (nbuf : Nat) (d : D) (disk : Nat → D) (devOf : Nat → Nat) :
    Coherent devOf (binit nbuf d disk) := by
  have hmem : ∀ b i, b ∈ ((binit nbuf d disk).bucket i).list ↔ hash b.val = i := by
    intro b i
    change b ∈ (List.filter _ _).reverse ↔ _
    simp
  refine ⟨⟨fun i ↦ ?_, fun b i j hi hj ↦ ?_, fun b ↦ ?_, fun b i h ↦ h.elim, ?_⟩,
    ⟨fun b i _ hused ↦ ?_, fun b i _ hbit ↦ ?_, fun _ _ _ _ _ _ ↦ ⟨rfl, rfl⟩⟩,
      fun b hused ↦ ?_, ?_, ?_⟩
  · exact List.nodup_reverse.mpr ((List.nodup_finRange nbuf).filter _)
  · rw [← (hmem b i).mp hi, ← (hmem b j).mp hj]
  · exact .inr ⟨hash b.val, (hmem b _).mpr rfl⟩
  · intro i b h
    cases h
  · simp [binit] at hused
  · cases hbit
  · simp [binit] at hused
  · intro b h
    cases h
  · intro b h
    cases h

section

variable [Fintype B] {devOf : Nat → Nat} {c c' : Bcache B D}

/-- One step keeps the cache coherent and does to the disk what it does to the array. -/
theorem Step.coherent {e : Op B D} (h : Step (Fintype.card B) c e c') (hc : Coherent devOf c)
    (hdev : ∀ dev blockno, .bread dev blockno = e → dev = devOf blockno) :
    Coherent devOf c' ∧ c'.disk = replay c.disk [e] := by
  obtain ⟨hpaired, hrun⟩ := h
  cases e with
  | bread dev blockno =>
    obtain rfl := hdev dev blockno rfl
    have hspec : Ensures (Op.perform (Fintype.card B) (.bread (devOf blockno) blockno)) c
        fun _ c' ↦ Coherent devOf c' ∧ c'.disk = c.disk := by
      unfold Op.perform
      apply (bread_coherent hc blockno).bind
      rintro b c' ⟨hc', hdisk, -⟩
      exact ensures_pure.mpr ⟨hc', hdisk⟩
    exact hspec.of_ok _ _ hrun
  | write b blockno d =>
    obtain ⟨hc', hdisk⟩ := (modifyWrite_coherent hc b d).of_ok _ _ hrun
    refine ⟨hc', ?_⟩
    rw [hdisk, hpaired.2]
    rfl
  | brelse b => exact (brelse_coherent hc b).of_ok _ _ hrun
  | binvalidate dev => exact (binvalidate_coherent hc dev).of_ok _ _ hrun

/-- A run keeps the cache coherent and leaves the array of the sectors on the disk. -/
theorem run_coherent {es : List (Op B D)} (hrun : Runs (Step (Fintype.card B)) c es c')
    (hc : Coherent devOf c) (hdev : ∀ dev blockno, .bread dev blockno ∈ es → dev = devOf blockno) :
    Coherent devOf c' ∧ c'.disk = replay c.disk es := by
  induction hrun with
  | nil => exact ⟨hc, rfl⟩
  | @cons c c1 c' e es head tail ih =>
    obtain ⟨hc1, hdisk1⟩ := head.coherent hc
      fun dev blockno he ↦ hdev dev blockno (he ▸ List.mem_cons_self)
    obtain ⟨hc', hdisk'⟩ := ih hc1
      fun dev blockno hmem ↦ hdev dev blockno (List.mem_cons_of_mem e hmem)
    refine ⟨hc', ?_⟩
    rw [hdisk', hdisk1]
    cases e <;> rfl

end

/-- The cache stands for the sectors: what is read, and when nothing is; and where the buffers
are. -/
structure Caches (nbuf : Nat) (devOf : Nat → Nat) (sectors : Nat → D) (c : Bcache B D) : Prop where
  reads : ∀ blockno b c', bread nbuf (devOf blockno) blockno c = .ok (b, c') →
    (c'.buf b).data = sectors blockno
  returns : ∀ blockno msg, bread nbuf (devOf blockno) blockno c = .error msg →
    (∀ b, 0 < (c.buf b).refcnt) ∨ ∃ b, (c.buf b).locked = true ∧ (c.buf b).blockno = blockno
  one : ∀ b, ∃! i, b ∈ (c.bucket i).list
  nodup : ∀ i, (c.bucket i).list.Nodup
  home : ∀ b i, b ∈ (c.bucket i).list →
    0 < (c.buf b).refcnt ∨ (c.buf b).valid = true ∨ (c.buf b).referenced = true →
      i = hash (c.buf b).blockno
  hand : ∀ i b, (c.bucket i).hand = some b → b ∈ (c.bucket i).list
  panic : ∀ dev blockno, bget nbuf dev blockno c = .error "bget: no buffers" →
    ∀ b, 0 < (c.buf b).refcnt

/-- What a coherent cache stands for. -/
theorem Coherent.caches [Fintype B] {devOf : Nat → Nat} {c : Bcache B D} (h : Coherent devOf c) :
    Caches (Fintype.card B) devOf c.disk c where
  reads blockno b c' hread := ((bread_coherent h blockno).of_ok b c' hread).2.2
  returns blockno msg hread := by
    unfold bread at hread
    rcases bind_eq_error hread with hget | ⟨b, c1, -, hfill⟩
    · rcases bget_error h hget with ⟨-, hused⟩ | ⟨-, b, hlocked, -, hblock⟩
      · exact .inl hused
      · exact .inr ⟨b, hlocked, hblock⟩
    · rcases bind_eq_error hfill with hfill | ⟨_, _, -, hpure⟩
      · exact absurd hfill (fill_ne_error b c1 msg)
      · cases hpure
  one b := by
    obtain ⟨i, hi⟩ := (h.lists.cover b).resolve_left id
    exact ⟨i, hi, fun j hj ↦ h.lists.apart b j i hj hi⟩
  nodup := h.lists.nodup
  home b i hb hused := by
    rcases hused with hused | hvalid | hbit
    · exact (h.placed.home b i hb (.inl hused)).symm
    · exact (h.placed.home b i hb (.inr hvalid)).symm
    · exact (h.placed.bit b i hb hbit).symm
  hand := h.lists.hand
  panic dev blockno hpanic := by
    rcases bget_error h hpanic with ⟨-, hused⟩ | ⟨hmsg, -⟩
    · exact hused
    · exact absurd hmsg (by decide)

/-- After every run of one process that reads no sector under two device numbers the cache stands
for the array of the sectors. -/
theorem cache_refines_disk {nbuf : Nat} {d : D} {disk : Nat → D} {devOf : Nat → Nat}
    {es : List (Op (Fin nbuf) D)} {c : Bcache (Fin nbuf) D}
    (hrun : Runs (Step nbuf) (binit nbuf d disk) es c)
    (hdev : ∀ dev blockno, .bread dev blockno ∈ es → dev = devOf blockno) :
    Caches nbuf devOf (replay disk es) c := by
  have hcard : Fintype.card (Fin nbuf) = nbuf := Fintype.card_fin nbuf
  have hrun' : Runs (Step (Fintype.card (Fin nbuf))) (binit nbuf d disk) es c :=
    hrun.mono fun _ _ _ hstep ↦ hcard.symm ▸ hstep
  obtain ⟨hc, hdisk⟩ := run_coherent hrun' (binit_coherent nbuf d disk devOf) hdev
  have hcaches := hc.caches
  rw [hcard, hdisk] at hcaches
  exact hcaches

/-- A step, computed. -/
def Op.next (nbuf : Nat) (c : Bcache B D) (e : Op B D) : Option (Bcache B D) :=
  if e.Paired c then (e.perform nbuf c).toOption.map Prod.snd else none

private theorem Op.next_step (nbuf : Nat) (c : Bcache B D) (e : Op B D) (c' : Bcache B D)
    (h : e.next nbuf c = some c') : Step nbuf c e c' := by
  unfold Op.next at h
  split at h
  next hpaired =>
    cases hrun : e.perform nbuf c with
    | error msg =>
      rw [hrun] at h
      cases h
    | ok p =>
      rw [hrun] at h
      cases h
      exact ⟨hpaired, hrun⟩
  next => cases h

/-- Sector 5 is read, written and released. -/
theorem cache_refines_disk_small : ∃ es, ∃ c : Bcache (Fin 30) Bool,
    Runs (Step 30) (binit 30 false fun _ ↦ false) es c ∧
      Caches 30 (fun _ ↦ 0) (replay (fun _ ↦ false) es) c ∧ replay (fun _ ↦ false) es 5 = true := by
  let es : List (Op (Fin 30) Bool) := [.bread 0 5, .write 18 5 true, .brelse 18, .binvalidate 0]
  obtain ⟨c, hrun, -⟩ := exists_runs (Op.next_step 30) (binit 30 false fun _ ↦ false) es
    (fun _ ↦ true) (by decide +kernel)
  refine ⟨es, c, hrun, cache_refines_disk hrun ?_, rfl⟩
  intro dev blockno hmem
  have hfirst : dev = 0 ∧ blockno = 5 := by simpa [es] using hmem
  exact hfirst.1

/-- The contents that `bread` returns. -/
def contents (nbuf dev blockno : Nat) (c : Bcache B D) : Option D :=
  match bread nbuf dev blockno c with
  | .ok (b, c') => some (c'.buf b).data
  | .error _ => none

/-- The buffer of a sector under one device number is not told of a write under another: the driver
reads and writes the same sector for both. -/
theorem stale_device : ∃ es, ∃ c : Bcache (Fin 30) Bool,
    Runs (Step 30) (binit 30 false fun _ ↦ false) es c ∧
      contents 30 1 5 c = some false ∧ replay (fun _ ↦ false) es 5 = true := by
  let es : List (Op (Fin 30) Bool) :=
    [.bread 1 5, .brelse 18, .bread 0 5, .write 5 5 true, .brelse 5]
  obtain ⟨c, hrun, hread⟩ := exists_runs (Op.next_step 30) (binit 30 false fun _ ↦ false) es
    (fun c ↦ contents 30 1 5 c = some false) (by decide +kernel)
  exact ⟨es, c, hrun, of_decide_eq_true hread, rfl⟩

end Xv6K210.Buffer
