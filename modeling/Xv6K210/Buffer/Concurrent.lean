import Xv6K210.Base.RefCount
import Xv6K210.Base.Runs
import Xv6K210.Buffer.Shelves

/-!
# Many processes

Source `kernel/fs/bio.c:102–227`. Between the regions that a process executes under
a bucket lock, and its accesses to the contents under a sleep lock, the others run. A process that
has several buffers at once stands for one process for each of them. Two misses of one sector that
overlap give it two buffers; without such a race there is one.
-/

namespace Xv6K210.Buffer

open Xv6K210.Base Prog Function

variable {P B D : Type}

/-- How far a process is with a buffer that it refers to: in `acquiresleep`, before it looks at
`valid`, after `bread`, or in `brelse` after the release of the sleep lock. -/
inductive Stage where
  | acquiring
  | locked
  | holding
  | releasing
  deriving DecidableEq

/-- Where a process is: between its calls, in `bget` before or after it took a victim off its list,
with a buffer, or in `binvalidate`. -/
inductive Pc (B : Type) where
  | idle
  | searching (dev blockno : Nat) (is : List (Fin nbucket))
  | inserting (dev blockno : Nat) (b : B)
  | has (stage : Stage) (dev blockno : Nat) (b : B)
  | invalidating (dev : Nat) (is : List (Fin nbucket))
  deriving DecidableEq

/-- What a process does next: begin a call, write what it has, or go on. -/
inductive Act (D : Type) where
  | bread (dev blockno : Nat)
  | write (d : D)
  | brelse
  | binvalidate (dev : Nat)
  | next

/-- The cache and the processes. -/
structure Kernel (P B D : Type) where
  cache : Bcache B D
  pc : P → Pc B

section

variable [DecidableEq B]

/-- The region that a process executes, and where it is afterwards. -/
def Pc.region (nbuf : Nat) : Pc B → Act D → Option (Bio B D (Pc B))
  | .idle, .bread dev blockno => some do
    match ← lookup dev blockno with
    | some b => pure (.has .acquiring dev blockno b)
    | none => pure (.searching dev blockno (bucketsFrom (hash blockno)))
  | .searching dev blockno (i :: is), .next => some do
    match ← detach nbuf i with
    | some b => pure (.inserting dev blockno b)
    | none => pure (.searching dev blockno is)
  | .inserting dev blockno b, .next => some do
    insert b dev blockno
    pure (.has .acquiring dev blockno b)
  | .has .acquiring dev blockno b, .next => some do
    acquiresleep b
    pure (.has .locked dev blockno b)
  | .has .locked dev blockno b, .next => some do
    fill b
    pure (.has .holding dev blockno b)
  | .has .holding dev blockno b, .write d => some do
    modifyWrite b d
    pure (.has .holding dev blockno b)
  | .has .holding dev blockno b, .brelse => some do
    releasesleep b
    pure (.has .releasing dev blockno b)
  | .has .releasing _ _ b, .next => some do
    unref b
    pure .idle
  | .idle, .binvalidate dev => some (pure (.invalidating dev (List.finRange nbucket)))
  | .invalidating dev (i :: is), .next => some do
    invalidateBucket dev i
    pure (.invalidating dev is)
  | .invalidating _ [], .next => some (pure .idle)
  | _, _ => none

variable [DecidableEq P]

/-- The state after a region; where it halts the process waits, or the system has panicked. -/
def Kernel.next (nbuf : Nat) (s : Kernel P B D) (e : P × Act D) : Option (Kernel P B D) :=
  match (s.pc e.1).region nbuf e.2 with
  | none => none
  | some x =>
    match x s.cache with
    | .ok (pc, c) => some ⟨c, update s.pc e.1 pc⟩
    | .error _ => none

/-- One process executes a region. -/
def Kernel.Step (nbuf : Nat) (s : Kernel P B D) (e : P × Act D) (s' : Kernel P B D) : Prop :=
  s.next nbuf e = some s'

end

/-! ### Where the processes are -/

/-- The buffer that a process has taken off its list. -/
def Pc.out : Pc B → Option B
  | .inserting _ _ b => some b
  | _ => none

/-- The buffer that a process refers to. -/
def Pc.user : Pc B → Option B
  | .has _ _ _ b => some b
  | _ => none

/-- The buffer whose sleep lock a process holds. -/
def Pc.lock : Pc B → Option B
  | .has .locked _ _ b => some b
  | .has .holding _ _ b => some b
  | _ => none

/-- No process but `p` has taken off a buffer that has the contents of the sector. -/
def Kernel.Alone (s : Kernel P B D) (p : P) (dev blockno : Nat) : Prop :=
  ∀ q x, q ≠ p → (s.pc q).out = some x → (s.cache.buf x).valid = true →
    ¬ ((s.cache.buf x).dev = dev ∧ (s.cache.buf x).blockno = blockno)

/-- The step of `p` does not run into the `bget` of another process: where `bget` finds a buffer for
the sector or puts one in, no other process has one with its contents taken off, and where it puts
one in, the bucket has none by then that is in use or has contents. -/
def Kernel.UnracedAt (s : Kernel P B D) (p : P) : Pc B → Act D → Prop
  | .idle, .bread dev blockno =>
    (∃ x ∈ (s.cache.bucket (hash blockno)).list,
      (s.cache.buf x).dev = dev ∧ (s.cache.buf x).blockno = blockno) → s.Alone p dev blockno
  | .inserting dev blockno _, .next =>
    s.Alone p dev blockno ∧ ∀ x ∈ (s.cache.bucket (hash blockno)).list,
      (s.cache.buf x).dev = dev ∧ (s.cache.buf x).blockno = blockno → ¬ (s.cache.buf x).Used
  | _, _ => True

/-- The next step does not run into the `bget` of another process. -/
def Kernel.Unraced (s : Kernel P B D) (e : P × Act D) : Prop := s.UnracedAt e.1 (s.pc e.1) e.2

section

variable [Fintype P] [DecidableEq P] [Fintype B] [DecidableEq B]

instance (s : Kernel P B D) (p : P) (dev blockno : Nat) : Decidable (s.Alone p dev blockno) :=
  inferInstanceAs (Decidable (∀ q x, q ≠ p → (s.pc q).out = some x →
    (s.cache.buf x).valid = true →
      ¬ ((s.cache.buf x).dev = dev ∧ (s.cache.buf x).blockno = blockno)))

instance (s : Kernel P B D) (p : P) (pc : Pc B) (act : Act D) :
    Decidable (s.UnracedAt p pc act) :=
  match pc, act with
  | .idle, .bread dev blockno => inferInstanceAs (Decidable
      ((∃ x ∈ (s.cache.bucket (hash blockno)).list,
        (s.cache.buf x).dev = dev ∧ (s.cache.buf x).blockno = blockno) → s.Alone p dev blockno))
  | .inserting dev blockno _, .next => inferInstanceAs (Decidable
      (s.Alone p dev blockno ∧ ∀ x ∈ (s.cache.bucket (hash blockno)).list,
        (s.cache.buf x).dev = dev ∧ (s.cache.buf x).blockno = blockno → ¬ (s.cache.buf x).Used))
  | .idle, .write _ => .isTrue trivial
  | .idle, .brelse => .isTrue trivial
  | .idle, .binvalidate _ => .isTrue trivial
  | .idle, .next => .isTrue trivial
  | .inserting _ _ _, .bread _ _ => .isTrue trivial
  | .inserting _ _ _, .write _ => .isTrue trivial
  | .inserting _ _ _, .brelse => .isTrue trivial
  | .inserting _ _ _, .binvalidate _ => .isTrue trivial
  | .searching _ _ _, _ => .isTrue trivial
  | .has _ _ _ _, _ => .isTrue trivial
  | .invalidating _ _, _ => .isTrue trivial

instance (s : Kernel P B D) (e : P × Act D) : Decidable (s.Unraced e) :=
  inferInstanceAs (Decidable (s.UnracedAt e.1 (s.pc e.1) e.2))

end

/-! ### The regions -/

variable [DecidableEq B] {c c' : Bcache B D}

/-- What holds between the regions. -/
structure Kernel.Inv [Fintype P] (s : Kernel P B D) : Prop where
  shelves : Shelves (fun p ↦ (s.pc p).out) s.cache
  count : ∀ b, ((s.cache.buf b).refcnt : Int) = refs (fun p ↦ (s.pc p).user) b
  key : ∀ p stage dev blockno b, s.pc p = .has stage dev blockno b →
    (s.cache.buf b).dev = dev ∧ (s.cache.buf b).blockno = blockno
  locks : Locks (fun p ↦ (s.pc p).lock) s.cache

section

variable [Fintype P] {s : Kernel P B D}

/-- A buffer that a process uses is counted. -/
theorem Kernel.Inv.user_pos (h : s.Inv) {p : P} {b : B} (hp : (s.pc p).user = some b) :
    0 < (s.cache.buf b).refcnt := by
  have hpos := (refs_pos (h := fun q ↦ (s.pc q).user)).mpr ⟨p, hp⟩
  have hcount := h.count b
  omega

variable [DecidableEq P] {p : P} {pc : Pc B}

omit [DecidableEq B] [Fintype P] in
/-- A view of the processes when one of them has moved. -/
theorem view_update {α : Type} (f : Pc B → α) (g : P → Pc B) (p : P) (pc : Pc B) :
    (fun q ↦ f (update g p pc q)) = update (fun q ↦ f (g q)) p (f pc) := by
  ext q : 1
  by_cases hq : q = p
  · rw [hq, update_self, update_self]
  · rw [update_of_ne hq, update_of_ne hq]

omit [DecidableEq B] [Fintype P] in
private theorem view_same {α : Type} {f : Pc B → α} {g : P → Pc B} {p : P} {pc : Pc B}
    (h : f pc = f (g p)) : (fun q ↦ f (update g p pc q)) = fun q ↦ f (g q) := by
  rw [view_update, h]
  exact update_eq_self p _

/-- The buffers that processes refer to keep their sectors. -/
theorem Kernel.Inv.key_update (h : s.Inv)
    (hkeep : ∀ b, 0 < (s.cache.buf b).refcnt → (c'.buf b).dev = (s.cache.buf b).dev ∧
      (c'.buf b).blockno = (s.cache.buf b).blockno)
    (hnew : ∀ stage dev blockno b, pc = .has stage dev blockno b →
      (c'.buf b).dev = dev ∧ (c'.buf b).blockno = blockno) :
    ∀ q stage dev blockno b, update s.pc p pc q = .has stage dev blockno b →
      (c'.buf b).dev = dev ∧ (c'.buf b).blockno = blockno := by
  intro q stage dev blockno b hq
  by_cases hqp : q = p
  · rw [hqp, update_self] at hq
    exact hnew stage dev blockno b hq
  · rw [update_of_ne hqp] at hq
    have hpos := h.user_pos (p := q) (b := b) (by rw [hq]; rfl)
    obtain ⟨hdev, hblock⟩ := hkeep b hpos
    rw [hdev, hblock]
    exact h.key q stage dev blockno b hq

/-- A region that takes and gives back no buffer. -/
theorem Kernel.Inv.calm (h : s.Inv) (hout : pc.out = (s.pc p).out)
    (huser : pc.user = (s.pc p).user) (hcalm : Calm s.cache c')
    (href : ∀ b, (c'.buf b).refcnt = (s.cache.buf b).refcnt)
    (hnew : ∀ stage dev blockno b, pc = .has stage dev blockno b →
      ∃ stage', s.pc p = .has stage' dev blockno b)
    (hlocks : Locks (update (fun q ↦ (s.pc q).lock) p pc.lock) c') :
    Kernel.Inv ⟨c', update s.pc p pc⟩ := by
  refine ⟨?_, ?_, ?_, ?_⟩
  · dsimp only
    rw [view_same hout]
    exact h.shelves.calm hcalm
  · intro b
    dsimp only
    rw [view_same huser, href]
    exact h.count b
  · apply h.key_update
    · exact fun b _ ↦ ⟨hcalm.dev b, hcalm.blockno b⟩
    · intro stage dev blockno b hpc
      obtain ⟨stage', hold⟩ := hnew stage dev blockno b hpc
      rw [hcalm.dev, hcalm.blockno]
      exact h.key p stage' dev blockno b hold
  · dsimp only
    rw [view_update]
    exact hlocks

/-- The locks when a process moves and keeps the lock that it has. -/
theorem Kernel.Inv.locks_same (h : s.Inv) (hlock : pc.lock = (s.pc p).lock)
    (hlocked : ∀ b, (c'.buf b).locked = (s.cache.buf b).locked) :
    Locks (update (fun q ↦ (s.pc q).lock) p pc.lock) c' := by
  rw [hlock]
  have hsame : update (fun q ↦ (s.pc q).lock) p (s.pc p).lock = fun q ↦ (s.pc q).lock :=
    update_eq_self p _
  rw [hsame]
  exact h.locks.same hlocked

omit [DecidableEq B] in
/-- Nothing changed. -/
theorem Calm.refl (c : Bcache B D) : Calm c c := .of_marked (.refl c) rfl

/-- A process moves, and the cache stays. -/
theorem Kernel.Inv.moves (h : s.Inv) (hout : pc.out = (s.pc p).out)
    (huser : pc.user = (s.pc p).user) (hlock : pc.lock = (s.pc p).lock)
    (hnew : ∀ stage dev blockno b, pc = .has stage dev blockno b →
      ∃ stage', s.pc p = .has stage' dev blockno b) :
    Kernel.Inv ⟨s.cache, update s.pc p pc⟩ :=
  h.calm hout huser (.refl _) (fun _ ↦ rfl) hnew (h.locks_same hlock fun _ ↦ rfl)

/-- The first region of `bget`. -/
theorem lookup_inv (h : s.Inv) (hpc : s.pc p = .idle) {dev blockno : Nat}
    (hun : (∃ x ∈ (s.cache.bucket (hash blockno)).list,
      (s.cache.buf x).dev = dev ∧ (s.cache.buf x).blockno = blockno) → s.Alone p dev blockno) :
    Ensures (lookup dev blockno) s.cache fun r c' ↦ Kernel.Inv ⟨c', update s.pc p
      (match r with
        | some b => .has .acquiring dev blockno b
        | none => .searching dev blockno (bucketsFrom (hash blockno)))⟩ := by
  apply (lookup_spec h.shelves.lists dev blockno).mono
  intro r c' hr
  cases r with
  | none =>
    obtain ⟨rfl, -⟩ := hr
    apply h.moves
    · rw [hpc]
      rfl
    · rw [hpc]
      rfl
    · rw [hpc]
      rfl
    · nofun
  | some b =>
    obtain ⟨hb, hdev, hblock, hfirst, rfl⟩ := hr
    have halone := hun ⟨b, hb, hdev, hblock⟩
    have hout : (Pc.has Stage.acquiring dev blockno b).out = (s.pc p).out := by
      rw [hpc]
      rfl
    have hlock : (Pc.has Stage.acquiring dev blockno b).lock = (s.pc p).lock := by
      rw [hpc]
      rfl
    have hrest : ∀ x, x ≠ b → update s.cache.buf b
        { s.cache.buf b with refcnt := (s.cache.buf b).refcnt + 1, referenced := true } x =
          s.cache.buf x := fun x hx ↦ update_of_ne hx _ _
    refine ⟨?_, ?_, ?_, ?_⟩
    · dsimp only
      rw [view_same hout]
      apply h.shelves.found hb hdev hblock hfirst
      intro q x hq hv
      apply halone q x _ hq hv
      rintro rfl
      rw [hpc] at hq
      cases hq
    · intro x
      dsimp only
      rw [view_update, refs_update, hpc]
      have hcount := h.count x
      have hnone : holds (Pc.idle : Pc B).user x = 0 := holds_none x
      rw [hnone]
      by_cases hx : x = b
      · subst hx
        have hself : holds (Pc.has Stage.acquiring dev blockno x).user x = 1 := holds_self x
        rw [update_self, hself]
        push_cast
        omega
      · have hother : holds (Pc.has Stage.acquiring dev blockno b).user x = 0 :=
          holds_of_ne (Ne.symm hx)
        rw [hrest x hx, hother]
        omega
    · apply h.key_update
      · intro x _
        by_cases hx : x = b
        · subst hx
          dsimp only
          rw [update_self]
          exact ⟨rfl, rfl⟩
        · dsimp only
          rw [hrest x hx]
          exact ⟨rfl, rfl⟩
      · rintro stage dev' blockno' b' ⟨⟩
        dsimp only
        rw [update_self]
        exact ⟨hdev, hblock⟩
    · dsimp only
      rw [view_update]
      apply h.locks_same hlock
      intro x
      by_cases hx : x = b
      · subst hx
        dsimp only
        rw [update_self]
      · dsimp only
        rw [hrest x hx]

/-- The second region of `bget`, for one bucket. -/
theorem detach_inv [Fintype B] (h : s.Inv) {dev blockno : Nat} {i : Fin nbucket}
    {is : List (Fin nbucket)} (hpc : s.pc p = .searching dev blockno (i :: is)) :
    Ensures (detach (Fintype.card B) i) s.cache fun r c' ↦ Kernel.Inv ⟨c', update s.pc p
      (match r with
        | some b => .inserting dev blockno b
        | none => .searching dev blockno is)⟩ := by
  apply (detach_spec i h.shelves.lists).mono
  intro r c' hr
  have huser : ∀ pc : Pc B, pc.user = none → pc.user = (s.pc p).user := by
    intro pc hnone
    rw [hnone, hpc]
    rfl
  have hlock : ∀ pc : Pc B, pc.lock = none → pc.lock = (s.pc p).lock := by
    intro pc hnone
    rw [hnone, hpc]
    rfl
  have hrest : ∀ {pc : Pc B}, pc.user = none → pc.lock = none → Marked s.cache c' →
      Shelves (fun q ↦ (update s.pc p pc q).out) c' →
        Kernel.Inv ⟨c', update s.pc p pc⟩ := by
    intro pc hu hl hm hshelves
    refine ⟨hshelves, ?_, ?_, ?_⟩
    · intro x
      dsimp only
      rw [view_same (huser pc hu), hm.refcnt]
      exact h.count x
    · apply h.key_update
      · exact fun b _ ↦ ⟨hm.dev b, hm.blockno b⟩
      · rintro stage dev' blockno' b rfl
        cases hu
    · dsimp only
      rw [view_update]
      exact h.locks_same (hlock pc hl) hm.locked
  cases r with
  | none =>
    obtain ⟨hs, -⟩ := hr
    apply hrest rfl rfl hs.marked
    rw [view_same (by rw [hpc]; rfl)]
    exact h.shelves.scanned hs
  | some b =>
    obtain ⟨hb, hzero, hd⟩ := hr
    apply hrest rfl rfl hd.marked
    rw [view_update]
    exact h.shelves.detached (by rw [hpc]; rfl) hb hzero hd

/-- The third region of `bget`. -/
theorem insert_inv (h : s.Inv) {dev blockno : Nat} {b : B}
    (hpc : s.pc p = .inserting dev blockno b) (halone : s.Alone p dev blockno)
    (hfresh : ∀ x ∈ (s.cache.bucket (hash blockno)).list, (s.cache.buf x).dev = dev ∧
      (s.cache.buf x).blockno = blockno → ¬ (s.cache.buf x).Used) :
    Ensures (insert b dev blockno) s.cache fun _ c' ↦
      Kernel.Inv ⟨c', update s.pc p (.has .acquiring dev blockno b)⟩ := by
  apply (insert_spec s.cache b dev blockno).mono
  rintro _ c' rfl
  have hp : (s.pc p).out = some b := by
    rw [hpc]
    rfl
  have hzero := h.shelves.off p b hp
  refine ⟨?_, ?_, ?_, ?_⟩
  · dsimp only
    rw [view_update]
    exact h.shelves.inserted hp halone hfresh
  · intro x
    dsimp only
    rw [view_update, refs_update, hpc]
    have hcount := h.count x
    have hnone : holds (Pc.inserting dev blockno b).user x = 0 := holds_none x
    rw [hnone]
    by_cases hx : x = b
    · subst hx
      have hself : holds (Pc.has Stage.acquiring dev blockno x).user x = 1 := holds_self x
      rw [inserted_self, hself]
      rw [hzero] at hcount
      dsimp only
      omega
    · have hother : holds (Pc.has Stage.acquiring dev blockno b).user x = 0 :=
        holds_of_ne (Ne.symm hx)
      rw [inserted_other _ dev blockno hx, hother]
      omega
  · apply h.key_update
    · intro x hpos
      rw [inserted_other]
      · exact ⟨rfl, rfl⟩
      · rintro rfl
        omega
    · rintro stage dev' blockno' b' ⟨⟩
      rw [inserted_self]
      exact ⟨rfl, rfl⟩
  · dsimp only
    rw [view_update]
    apply h.locks_same
    · rw [hpc]
      rfl
    · intro x
      by_cases hx : x = b
      · rw [hx, inserted_self]
      · rw [inserted_other _ dev blockno hx]
/-- A buffer that a process refers to changes, but not its counts and its sector. -/
theorem Kernel.Inv.setBuf (h : s.Inv) {b : B} {x : Buf D} (hu : (s.pc p).user = some b)
    (hbuf : c'.buf = update s.cache.buf b x) (hbucket : c'.bucket = s.cache.bucket)
    (hdev : x.dev = (s.cache.buf b).dev) (hblock : x.blockno = (s.cache.buf b).blockno)
    (href : x.refcnt = (s.cache.buf b).refcnt) (hout : pc.out = (s.pc p).out)
    (huser : pc.user = (s.pc p).user)
    (hnew : ∀ stage dev blockno b, pc = .has stage dev blockno b →
      ∃ stage', s.pc p = .has stage' dev blockno b)
    (hlocks : Locks (update (fun q ↦ (s.pc q).lock) p pc.lock) c') :
    Kernel.Inv ⟨c', update s.pc p pc⟩ := by
  have hpos := h.user_pos hu
  apply h.calm hout huser _ _ hnew hlocks
  · apply Calm.of_buf hbuf hbucket hdev hblock
    · exact fun _ ↦ .inl hpos
    · exact fun _ ↦ .inr (.inl hpos)
    · intro hzero
      omega
  · intro y
    rw [hbuf]
    by_cases hy : y = b
    · rw [hy, update_self, href]
    · rw [update_of_ne hy]

/-- `acquiresleep`, when the lock is free. -/
theorem acquire_inv (h : s.Inv) {dev blockno : Nat} {b : B}
    (hpc : s.pc p = .has .acquiring dev blockno b) :
    Ensures (acquiresleep b) s.cache fun _ c' ↦
      Kernel.Inv ⟨c', update s.pc p (.has .locked dev blockno b)⟩ := by
  unfold acquiresleep
  rw [ensures_bind, ensures_get, ensures_ite]
  refine ⟨fun _ ↦ ensures_halt, fun hfree ↦ ?_⟩
  unfold Buffer.setBuf
  rw [ensures_modify]
  refine h.setBuf (b := b) (by rw [hpc]; rfl) rfl rfl rfl rfl rfl (by rw [hpc]; rfl)
    (by rw [hpc]; rfl) ?_ ?_
  · rintro stage dev' blockno' b' ⟨⟩
    exact ⟨_, hpc⟩
  · apply h.locks.acquire (b := b)
    · exact Bool.eq_false_iff.mpr hfree
    · dsimp only
      rw [update_self]
    · intro x hx
      dsimp only
      rw [update_of_ne hx]

/-- The disk read of `bread`. -/
theorem fill_inv (h : s.Inv) {dev blockno : Nat} {b : B}
    (hpc : s.pc p = .has .locked dev blockno b) :
    Ensures (fill b) s.cache fun _ c' ↦
      Kernel.Inv ⟨c', update s.pc p (.has .holding dev blockno b)⟩ := by
  have hnew : ∀ stage dev' blockno' b',
      Pc.has Stage.holding dev blockno b = .has stage dev' blockno' b' →
        ∃ stage', s.pc p = .has stage' dev' blockno' b' := by
    rintro stage dev' blockno' b' ⟨⟩
    exact ⟨_, hpc⟩
  unfold fill diskRead Buffer.setBuf
  simp only [ensures_bind, ensures_get, ensures_doIf, ensures_modify]
  refine ⟨fun _ ↦ ?_, fun _ ↦ ?_⟩
  · rw [update_self, update_idem]
    refine h.setBuf (b := b) (by rw [hpc]; rfl) rfl rfl rfl rfl rfl (by rw [hpc]; rfl)
      (by rw [hpc]; rfl) hnew ?_
    apply h.locks_same (by rw [hpc]; rfl)
    intro x
    dsimp only
    by_cases hx : x = b
    · rw [hx, update_self]
    · rw [update_of_ne hx]
  · apply h.moves _ _ _ hnew
    · rw [hpc]
      rfl
    · rw [hpc]
      rfl
    · rw [hpc]
      rfl

/-- A change of the contents, and `bwrite`. -/
theorem write_inv (h : s.Inv) {dev blockno : Nat} {b : B}
    (hpc : s.pc p = .has .holding dev blockno b) (d : D) :
    Ensures (modifyWrite b d) s.cache fun _ c' ↦
      Kernel.Inv ⟨c', update s.pc p (.has .holding dev blockno b)⟩ := by
  unfold modifyWrite bwrite diskWrite Buffer.setBuf
  simp only [ensures_bind, ensures_get, ensures_modify, ensures_ite]
  refine ⟨fun _ ↦ ensures_halt, fun _ ↦ ?_⟩
  refine h.setBuf (b := b) (by rw [hpc]; rfl) rfl rfl rfl rfl rfl (by rw [hpc]) (by rw [hpc])
    ?_ ?_
  · rintro stage dev' blockno' b' ⟨⟩
    exact ⟨_, hpc⟩
  · apply h.locks_same (by rw [hpc])
    intro x
    dsimp only
    by_cases hx : x = b
    · rw [hx, update_self]
    · rw [update_of_ne hx]

/-- The first part of `brelse`. -/
theorem release_inv (h : s.Inv) {dev blockno : Nat} {b : B}
    (hpc : s.pc p = .has .holding dev blockno b) :
    Ensures (releasesleep b) s.cache fun _ c' ↦
      Kernel.Inv ⟨c', update s.pc p (.has .releasing dev blockno b)⟩ := by
  unfold releasesleep Buffer.setBuf
  simp only [ensures_bind, ensures_get, ensures_modify, ensures_ite]
  refine ⟨fun _ ↦ ensures_halt, fun _ ↦ ?_⟩
  refine h.setBuf (b := b) (by rw [hpc]; rfl) rfl rfl rfl rfl rfl (by rw [hpc]; rfl)
    (by rw [hpc]; rfl) ?_ ?_
  · rintro stage dev' blockno' b' ⟨⟩
    exact ⟨_, hpc⟩
  · apply h.locks.release (b := b)
    · rw [hpc]
      rfl
    · intro x hx
      dsimp only
      rw [update_of_ne hx]

/-- The region of `brelse`. -/
theorem unref_inv (h : s.Inv) {dev blockno : Nat} {b : B}
    (hpc : s.pc p = .has .releasing dev blockno b) :
    Ensures (unref b) s.cache fun _ c' ↦ Kernel.Inv ⟨c', update s.pc p .idle⟩ := by
  have hpos := h.user_pos (p := p) (b := b) (by rw [hpc]; rfl)
  unfold unref Buffer.setBuf
  rw [ensures_modify]
  have hcalm : Calm s.cache { s.cache with
      buf := update s.cache.buf b
        { s.cache.buf b with refcnt := (s.cache.buf b).refcnt - 1, referenced := true } } := by
    refine Calm.of_buf (b := b) rfl rfl rfl rfl ?_ ?_ ?_
    · exact fun _ ↦ .inl hpos
    · exact fun _ ↦ .inr (.inl hpos)
    · intro hzero
      omega
  refine ⟨?_, ?_, ?_, ?_⟩
  · dsimp only
    rw [view_same (by rw [hpc]; rfl)]
    exact h.shelves.calm hcalm
  · intro x
    dsimp only
    rw [view_update, refs_update, hpc]
    have hcount := h.count x
    have hnone : holds (Pc.idle : Pc B).user x = 0 := holds_none x
    rw [hnone]
    by_cases hx : x = b
    · subst hx
      have hself : holds (Pc.has Stage.releasing dev blockno x).user x = 1 := holds_self x
      rw [update_self, hself]
      dsimp only
      omega
    · have hother : holds (Pc.has Stage.releasing dev blockno b).user x = 0 :=
        holds_of_ne (Ne.symm hx)
      rw [update_of_ne hx, hother]
      omega
  · apply h.key_update
    · exact fun x _ ↦ ⟨hcalm.dev x, hcalm.blockno x⟩
    · nofun
  · dsimp only
    rw [view_update]
    apply h.locks_same (by rw [hpc]; rfl)
    intro x
    dsimp only
    by_cases hx : x = b
    · rw [hx, update_self]
    · rw [update_of_ne hx]

/-- `binvalidate`, in one bucket. -/
theorem invalidate_inv (h : s.Inv) {dev : Nat} {i : Fin nbucket} {is : List (Fin nbucket)}
    (hpc : s.pc p = .invalidating dev (i :: is)) :
    Ensures (invalidateBucket dev i) s.cache fun _ c' ↦
      Kernel.Inv ⟨c', update s.pc p (.invalidating dev is)⟩ := by
  unfold invalidateBucket
  rw [ensures_modify]
  set buf : B → Buf D := fun b ↦
    if b ∈ (s.cache.bucket i).list ∧ (s.cache.buf b).dev = dev ∧ (s.cache.buf b).refcnt = 0 then
      { s.cache.buf b with valid := false }
    else s.cache.buf b with hbuf
  have hcases : ∀ b, buf b = s.cache.buf b ∨ buf b = { s.cache.buf b with valid := false } := by
    intro b
    rw [hbuf]
    dsimp only
    split_ifs
    · exact .inr rfl
    · exact .inl rfl
  have hfields : ∀ b, (buf b).dev = (s.cache.buf b).dev ∧
      (buf b).blockno = (s.cache.buf b).blockno ∧ (buf b).refcnt = (s.cache.buf b).refcnt ∧
      (buf b).locked = (s.cache.buf b).locked ∧
      (buf b).referenced = (s.cache.buf b).referenced ∧
      ((buf b).valid = true → (s.cache.buf b).valid = true) := by
    intro b
    rcases hcases b with hb | hb
    · rw [hb]
      exact ⟨rfl, rfl, rfl, rfl, rfl, id⟩
    · rw [hb]
      exact ⟨rfl, rfl, rfl, rfl, rfl, nofun⟩
  apply h.calm (by rw [hpc]; rfl) (by rw [hpc]; rfl)
  · constructor
    · rfl
    · exact fun b ↦ (hfields b).1
    · exact fun b ↦ (hfields b).2.1
    · intro b hu
      obtain ⟨-, -, href, -, -, hvalid⟩ := hfields b
      dsimp only at hu
      unfold Buf.Used at hu ⊢
      rw [href] at hu
      exact hu.imp_right hvalid
    · intro b hbit
      obtain ⟨-, -, -, -, hsame, -⟩ := hfields b
      dsimp only at hbit
      rw [hsame] at hbit
      exact .inl hbit
    · intro b hzero
      obtain ⟨-, -, href, -, -, hvalid⟩ := hfields b
      dsimp only
      rw [href]
      exact ⟨hzero, hvalid⟩
  · exact fun b ↦ (hfields b).2.2.1
  · nofun
  · apply h.locks_same (by rw [hpc]; rfl)
    exact fun b ↦ (hfields b).2.2.2.1

/-! ### Runs -/

omit [Fintype P] in
/-- A step is a region that returned. -/
theorem Kernel.Step.region {nbuf : Nat} {e : P × Act D} {s' : Kernel P B D}
    (h : Kernel.Step nbuf s e s') : ∃ x pc c', (s.pc e.1).region nbuf e.2 = some x ∧
      x s.cache = .ok (pc, c') ∧ s' = ⟨c', update s.pc e.1 pc⟩ := by
  unfold Kernel.Step Kernel.next at h
  cases hregion : (s.pc e.1).region nbuf e.2 with
  | none =>
    rw [hregion] at h
    cases h
  | some x =>
    rw [hregion] at h
    dsimp only at h
    cases hx : x s.cache with
    | error msg =>
      rw [hx] at h
      cases h
    | ok r =>
      rw [hx] at h
      exact ⟨x, r.1, r.2, rfl, hx, (Option.some.inj h).symm⟩

/-- The regions, one after the other. -/
inductive Moves (nbuf : Nat) : Pc B → Act D → Bio B D (Pc B) → Prop where
  | lookup (dev blockno : Nat) : Moves nbuf .idle (.bread dev blockno) do
      match ← Buffer.lookup dev blockno with
      | some b => pure (.has .acquiring dev blockno b)
      | none => pure (.searching dev blockno (bucketsFrom (hash blockno)))
  | detach (dev blockno : Nat) (i : Fin nbucket) (is : List (Fin nbucket)) :
    Moves nbuf (.searching dev blockno (i :: is)) .next do
      match ← Buffer.detach nbuf i with
      | some b => pure (.inserting dev blockno b)
      | none => pure (.searching dev blockno is)
  | insert (dev blockno : Nat) (b : B) : Moves nbuf (.inserting dev blockno b) .next do
      Buffer.insert b dev blockno
      pure (.has .acquiring dev blockno b)
  | acquire (dev blockno : Nat) (b : B) : Moves nbuf (.has .acquiring dev blockno b) .next do
      acquiresleep b
      pure (.has .locked dev blockno b)
  | fill (dev blockno : Nat) (b : B) : Moves nbuf (.has .locked dev blockno b) .next do
      Buffer.fill b
      pure (.has .holding dev blockno b)
  | write (dev blockno : Nat) (b : B) (d : D) :
    Moves nbuf (.has .holding dev blockno b) (.write d) do
      modifyWrite b d
      pure (.has .holding dev blockno b)
  | release (dev blockno : Nat) (b : B) : Moves nbuf (.has .holding dev blockno b) .brelse do
      releasesleep b
      pure (.has .releasing dev blockno b)
  | unref (dev blockno : Nat) (b : B) : Moves nbuf (.has .releasing dev blockno b) .next do
      Buffer.unref b
      pure .idle
  | start (dev : Nat) : Moves nbuf .idle (.binvalidate dev)
      (pure (.invalidating dev (List.finRange nbucket)))
  | invalidate (dev : Nat) (i : Fin nbucket) (is : List (Fin nbucket)) :
    Moves nbuf (.invalidating dev (i :: is)) .next do
      invalidateBucket dev i
      pure (.invalidating dev is)
  | stop (dev : Nat) : Moves nbuf (.invalidating dev []) .next (pure .idle)

private theorem moves_of_region {nbuf : Nat} {act : Act D} {x : Bio B D (Pc B)}
    (h : pc.region nbuf act = some x) : Moves nbuf pc act x := by
  unfold Pc.region at h
  split at h
  · obtain rfl := Option.some.inj h
    exact .lookup _ _
  · obtain rfl := Option.some.inj h
    exact .detach _ _ _ _
  · obtain rfl := Option.some.inj h
    exact .insert _ _ _
  · obtain rfl := Option.some.inj h
    exact .acquire _ _ _
  · obtain rfl := Option.some.inj h
    exact .fill _ _ _
  · obtain rfl := Option.some.inj h
    exact .write _ _ _ _
  · obtain rfl := Option.some.inj h
    exact .release _ _ _
  · obtain rfl := Option.some.inj h
    exact .unref _ _ _
  · obtain rfl := Option.some.inj h
    exact .start _
  · obtain rfl := Option.some.inj h
    exact .invalidate _ _ _
  · obtain rfl := Option.some.inj h
    exact .stop _
  · cases h

omit [Fintype P] in
/-- A step is a move of one process. -/
theorem Kernel.Step.moves {nbuf : Nat} {e : P × Act D} {s' : Kernel P B D}
    (h : Kernel.Step nbuf s e s') : ∃ x pc c', Moves nbuf (s.pc e.1) e.2 x ∧
      x s.cache = .ok (pc, c') ∧ s' = ⟨c', update s.pc e.1 pc⟩ := by
  obtain ⟨x, pc, c', hregion, hx, heq⟩ := h.region
  exact ⟨x, pc, c', moves_of_region hregion, hx, heq⟩

/-- A region that does not run into another process's `bget` keeps the invariant. -/
theorem Kernel.Inv.step [Fintype B] (h : s.Inv) {e : P × Act D} (hun : s.Unraced e)
    {s' : Kernel P B D} (hstep : Kernel.Step (Fintype.card B) s e s') : s'.Inv := by
  obtain ⟨x, pc, c', hmoves, hx, rfl⟩ := hstep.moves
  obtain ⟨p, act⟩ := e
  suffices hens : Ensures x s.cache fun pc c' ↦ Kernel.Inv ⟨c', update s.pc p pc⟩ from
    hens.of_ok pc c' hx
  unfold Kernel.Unraced at hun
  dsimp only at hmoves hun
  generalize hpc : s.pc p = pc0 at hmoves hun
  cases hmoves with
  | lookup dev blockno =>
    apply (lookup_inv h hpc hun).bind
    intro r c1 h1
    cases r with
    | none => exact ensures_pure.mpr h1
    | some b => exact ensures_pure.mpr h1
  | detach dev blockno i is =>
    apply (detach_inv h hpc).bind
    intro r c1 h1
    cases r with
    | none => exact ensures_pure.mpr h1
    | some b => exact ensures_pure.mpr h1
  | insert dev blockno b =>
    exact (insert_inv h hpc hun.1 hun.2).bind fun _ c1 h1 ↦ ensures_pure.mpr h1
  | acquire dev blockno b =>
    exact (acquire_inv h hpc).bind fun _ c1 h1 ↦ ensures_pure.mpr h1
  | fill dev blockno b =>
    exact (fill_inv h hpc).bind fun _ c1 h1 ↦ ensures_pure.mpr h1
  | write dev blockno b d =>
    exact (write_inv h hpc d).bind fun _ c1 h1 ↦ ensures_pure.mpr h1
  | release dev blockno b =>
    exact (release_inv h hpc).bind fun _ c1 h1 ↦ ensures_pure.mpr h1
  | unref dev blockno b =>
    exact (unref_inv h hpc).bind fun _ c1 h1 ↦ ensures_pure.mpr h1
  | start dev =>
    rw [ensures_pure]
    refine h.moves ?_ ?_ ?_ nofun
    · rw [hpc]
      rfl
    · rw [hpc]
      rfl
    · rw [hpc]
      rfl
  | invalidate dev i is =>
    exact (invalidate_inv h hpc).bind fun _ c1 h1 ↦ ensures_pure.mpr h1
  | stop dev =>
    rw [ensures_pure]
    refine h.moves ?_ ?_ ?_ nofun
    · rw [hpc]
      rfl
    · rw [hpc]
      rfl
    · rw [hpc]
      rfl

end

end Xv6K210.Buffer
