import Xv6K210.Buffer.Clock

/-!
# Buffers on their lists and off them

While a process looks for a victim the others go on, so that several buffers may be
off their lists at once. What one region of `bget` does to the lists, and when it leaves a sector
one buffer.
-/

namespace Xv6K210.Buffer

open Xv6K210.Base Prog Function

variable {P B D : Type}

/-- The buffer is in use or has contents. -/
def Buf.Used (x : Buf D) : Prop := 0 < x.refcnt ∨ x.valid = true

/-- The buffers are for the same sector. -/
def Buf.SameKey (x y : Buf D) : Prop := x.dev = y.dev ∧ x.blockno = y.blockno

instance (x : Buf D) : Decidable x.Used := inferInstanceAs (Decidable (_ ∨ _))

/-! ### The shelves -/

/-- The buffers on the lists and off them, when `out` says which a process has taken off. -/
structure Shelves [DecidableEq B] (out : P → Option B) (c : Bcache B D) : Prop where
  lists : Lists (fun b ↦ ∃ p, out p = some b) c
  placed : Placed c
  apart : ∀ p q b, out p = some b → out q = some b → p = q
  off : ∀ p x, out p = some x → (c.buf x).refcnt = 0
  /-- the sector of a buffer that is off its list, with contents, has no other buffer -/
  gone : ∀ p x y, out p = some x → (c.buf x).valid = true → y ≠ x →
    (c.buf y).SameKey (c.buf x) → ¬ (c.buf y).Used

variable [DecidableEq B] {out : P → Option B} {c c' : Bcache B D}

/-- A buffer that is on no list is off. -/
theorem Shelves.listed (h : Shelves out c) {b : B} {i : Fin nbucket} (hb : b ∈ (c.bucket i).list)
    (p : P) : out p ≠ some b := fun hp ↦ h.lists.off b i ⟨p, hp⟩ hb

/-- One buffer of a sector is in use or has contents. -/
theorem Shelves.unique (h : Shelves out c) {a b : B} (ha : (c.buf a).Used) (hb : (c.buf b).Used)
    (hkey : (c.buf a).SameKey (c.buf b)) : a = b := by
  by_contra hne
  have hvalid : ∀ p x, out p = some x → (c.buf x).Used → (c.buf x).valid = true := by
    intro p x hp hx
    apply hx.resolve_left
    rw [h.off p x hp]
    exact Nat.lt_irrefl 0
  rcases h.lists.cover a with ⟨p, hp⟩ | ⟨i, hi⟩
  · exact h.gone p a b hp (hvalid p a hp ha) (Ne.symm hne) ⟨hkey.1.symm, hkey.2.symm⟩ hb
  · rcases h.lists.cover b with ⟨p, hp⟩ | ⟨j, hj⟩
    · exact h.gone p b a hp (hvalid p b hp hb) hne hkey ha
    · have hij : i = j := by
        rw [← h.placed.home a i hi ha, ← h.placed.home b j hj hb, hkey.2]
      subst hij
      exact hne (h.placed.unique hi hj ha hb hkey.1 hkey.2)

/-- The lists stay, and no buffer comes into use or gets contents that was not in use. -/
structure Calm (c c' : Bcache B D) : Prop where
  bucket : c'.bucket = c.bucket
  dev : ∀ x, (c'.buf x).dev = (c.buf x).dev
  blockno : ∀ x, (c'.buf x).blockno = (c.buf x).blockno
  used : ∀ x, (c'.buf x).Used → (c.buf x).Used
  bit : ∀ x, (c'.buf x).referenced = true → (c.buf x).referenced = true ∨ (c.buf x).Used
  idle : ∀ x, (c.buf x).refcnt = 0 → (c'.buf x).refcnt = 0 ∧
    ((c'.buf x).valid = true → (c.buf x).valid = true)

/-- A calm step keeps the buffers on their shelves. -/
theorem Shelves.calm (h : Shelves out c) (hcalm : Calm c c') : Shelves out c' := by
  obtain ⟨hbucket, hdev, hblock, hused, hbit, hidle⟩ := hcalm
  refine ⟨⟨?_, ?_, ?_, ?_, ?_⟩, ⟨?_, ?_, ?_⟩, h.apart, ?_, ?_⟩
  · rw [hbucket]
    exact h.lists.nodup
  · rw [hbucket]
    exact h.lists.apart
  · rw [hbucket]
    exact h.lists.cover
  · rw [hbucket]
    exact h.lists.off
  · rw [hbucket]
    exact h.lists.hand
  · intro b i hb hu
    rw [hbucket] at hb
    rw [hblock]
    exact h.placed.home b i hb (hused b hu)
  · intro b i hb href
    rw [hbucket] at hb
    rw [hblock]
    rcases hbit b href with hold | hu
    · exact h.placed.bit b i hb hold
    · exact h.placed.home b i hb hu
  · intro i a b hbefore hd hk
    rw [hbucket] at hbefore
    rw [hdev, hdev] at hd
    rw [hblock, hblock] at hk
    obtain ⟨hvalid, hzero⟩ := h.placed.first i a b hbefore hd hk
    obtain ⟨hzero', hvalid'⟩ := hidle b hzero
    refine ⟨?_, hzero'⟩
    rw [Bool.eq_false_iff]
    intro hv
    rw [hvalid' hv] at hvalid
    cases hvalid
  · intro p x hp
    exact (hidle x (h.off p x hp)).1
  · intro p x y hp hv hne hkey hu
    refine h.gone p x y hp ((hidle x (h.off p x hp)).2 hv) hne ?_ (hused y hu)
    unfold Buf.SameKey at hkey ⊢
    rwa [hdev, hdev, hblock, hblock] at hkey

omit [DecidableEq B] in
/-- Marks without a move are calm. -/
theorem Calm.of_marked (h : Marked c c') (hbucket : c'.bucket = c.bucket) : Calm c c' where
  bucket := hbucket
  dev := h.dev
  blockno := h.blockno
  used x := by
    unfold Buf.Used
    rw [h.refcnt, h.valid]
    exact id
  bit x hx := .inl (h.bit x hx)
  idle x hx := by
    rw [h.refcnt, h.valid]
    exact ⟨hx, id⟩

/-- A change of one buffer. -/
theorem Calm.of_buf {b : B} {x : Buf D} (hbuf : c'.buf = update c.buf b x)
    (hbucket : c'.bucket = c.bucket) (hdev : x.dev = (c.buf b).dev)
    (hblock : x.blockno = (c.buf b).blockno) (hused : x.Used → (c.buf b).Used)
    (hbit : x.referenced = true → (c.buf b).referenced = true ∨ (c.buf b).Used)
    (hidle : (c.buf b).refcnt = 0 → x.refcnt = 0 ∧ (x.valid = true → (c.buf b).valid = true)) :
    Calm c c' := by
  have hcases : ∀ (r : Buf D → Buf D → Prop), (∀ y, r y y) → r (c.buf b) x →
      ∀ y, r (c.buf y) (c'.buf y) := by
    intro r hrefl hself y
    rw [hbuf]
    by_cases hy : y = b
    · rw [hy, update_self]
      exact hself
    · rw [update_of_ne hy]
      exact hrefl _
  constructor
  · exact hbucket
  · exact hcases (fun y z ↦ z.dev = y.dev) (fun _ ↦ rfl) hdev
  · exact hcases (fun y z ↦ z.blockno = y.blockno) (fun _ ↦ rfl) hblock
  · exact hcases (fun y z ↦ z.Used → y.Used) (fun _ ↦ id) hused
  · exact hcases (fun y z ↦ z.referenced = true → y.referenced = true ∨ y.Used)
      (fun _ ↦ .inl) hbit
  · exact hcases (fun y z ↦ y.refcnt = 0 → z.refcnt = 0 ∧ (z.valid = true → y.valid = true))
      (fun _ hy ↦ ⟨hy, id⟩) hidle

omit [DecidableEq B] in
/-- Marks change no use. -/
theorem Marked.used (h : Marked c c') (x : B) : (c'.buf x).Used ↔ (c.buf x).Used := by
  unfold Buf.Used
  rw [h.refcnt, h.valid]

omit [DecidableEq B] in
private theorem Marked.sameKey (h : Marked c c') (x y : B) :
    (c'.buf x).SameKey (c'.buf y) ↔ (c.buf x).SameKey (c.buf y) := by
  unfold Buf.SameKey
  rw [h.dev, h.dev, h.blockno, h.blockno]

/-- The search of a bucket without a victim. -/
theorem Shelves.scanned (h : Shelves out c) {i : Fin nbucket} (hs : Scanned i c c') :
    Shelves out c' := by
  have hsub : ∀ j, (c'.bucket j).list.Sublist (c.bucket j).list := by
    intro j
    by_cases hj : j = i
    · rw [hj, hs.list]
    · rw [hs.other j hj]
  refine ⟨hs.lists h.lists, h.placed.marked hs.marked hsub, h.apart, ?_, ?_⟩
  · intro p x hp
    rw [hs.marked.refcnt]
    exact h.off p x hp
  · intro p x y hp hv hne hkey
    rw [hs.marked.valid] at hv
    rw [hs.marked.sameKey] at hkey
    rw [hs.marked.used]
    exact h.gone p x y hp hv hne hkey

section

variable [DecidableEq P]

/-- A process takes a buffer off that nobody uses. -/
theorem Shelves.detached (h : Shelves out c) {i : Fin nbucket} {b : B} {p : P}
    (hp : out p = none) (hb : b ∈ (c.bucket i).list) (hzero : (c.buf b).refcnt = 0)
    (hd : Detached i b c c') : Shelves (update out p (some b)) c' := by
  have hcases : ∀ {q x}, update out p (some b) q = some x →
      (q = p ∧ x = b) ∨ (q ≠ p ∧ out q = some x) := by
    intro q x hq
    by_cases hqp : q = p
    · rw [hqp, update_self] at hq
      exact .inl ⟨hqp, (Option.some.inj hq).symm⟩
    · rw [update_of_ne hqp] at hq
      exact .inr ⟨hqp, hq⟩
  have hout : (fun x ↦ ∃ q, update out p (some b) q = some x) =
      fun x ↦ (∃ q, out q = some x) ∨ x = b := by
    ext x : 1
    refine propext ⟨?_, ?_⟩
    · rintro ⟨q, hq⟩
      rcases hcases hq with ⟨-, rfl⟩ | ⟨-, hq⟩
      · exact .inr rfl
      · exact .inl ⟨q, hq⟩
    · rintro (⟨q, hq⟩ | rfl)
      · refine ⟨q, ?_⟩
        rw [update_of_ne]
        · exact hq
        · rintro rfl
          rw [hp] at hq
          cases hq
      · exact ⟨p, update_self _ _ _⟩
  refine ⟨?_, h.placed.marked hd.marked hd.sublist, ?_, ?_, ?_⟩
  · rw [hout]
    exact hd.lists h.lists hb
  · intro q r x hq hr
    rcases hcases hq with ⟨rfl, rfl⟩ | ⟨-, hq'⟩
    · rcases hcases hr with ⟨rfl, -⟩ | ⟨-, hr⟩
      · rfl
      · exact absurd hr (h.listed hb r)
    · rcases hcases hr with ⟨-, rfl⟩ | ⟨-, hr'⟩
      · exact absurd hq' (h.listed hb q)
      · exact h.apart q r x hq' hr'
  · intro q x hq
    rw [hd.marked.refcnt]
    rcases hcases hq with ⟨-, rfl⟩ | ⟨-, hq⟩
    · exact hzero
    · exact h.off q x hq
  · intro q x y hq hv hne hkey
    rw [hd.marked.valid] at hv
    rw [hd.marked.sameKey] at hkey
    rw [hd.marked.used]
    rcases hcases hq with ⟨-, rfl⟩ | ⟨-, hq⟩
    · exact fun hu ↦ hne (h.unique hu (.inr hv) hkey)
    · exact h.gone q x y hq hv hne hkey

end

/-- A buffer is found in its bucket, before all others for the sector. -/
theorem Shelves.found (h : Shelves out c) {b : B} {dev blockno : Nat}
    (hb : b ∈ (c.bucket (hash blockno)).list) (hdev : (c.buf b).dev = dev)
    (hblock : (c.buf b).blockno = blockno)
    (hfirst : ∀ a, Before (c.bucket (hash blockno)).list a b →
      ¬ ((c.buf a).dev = dev ∧ (c.buf a).blockno = blockno))
    (halone : ∀ q x, out q = some x → (c.buf x).valid = true →
      ¬ ((c.buf x).dev = dev ∧ (c.buf x).blockno = blockno)) :
    Shelves out { c with
      buf := update c.buf b
        { c.buf b with refcnt := (c.buf b).refcnt + 1, referenced := true } } := by
  set y : Buf D := { c.buf b with refcnt := (c.buf b).refcnt + 1, referenced := true } with hy
  have hself : update c.buf b y b = y := update_self _ _ _
  have hrest : ∀ x, x ≠ b → update c.buf b y x = c.buf x :=
    fun x hx ↦ update_of_ne hx _ _
  have hkeys : ∀ x, (update c.buf b y x).dev = (c.buf x).dev ∧
      (update c.buf b y x).blockno = (c.buf x).blockno ∧
      (update c.buf b y x).valid = (c.buf x).valid := by
    intro x
    by_cases hx : x = b
    · rw [hx, hself]
      exact ⟨rfl, rfl, rfl⟩
    · rw [hrest x hx]
      exact ⟨rfl, rfl, rfl⟩
  have hhome : ∀ i, b ∈ (c.bucket i).list → hash (c.buf b).blockno = i := by
    intro i hi
    rw [hblock]
    exact h.lists.apart b _ _ hb hi
  refine ⟨⟨h.lists.nodup, h.lists.apart, h.lists.cover, h.lists.off, h.lists.hand⟩,
    ⟨?_, ?_, ?_⟩, h.apart, ?_, ?_⟩
  · intro x i hx hu
    dsimp only at hx hu ⊢
    rw [(hkeys x).2.1]
    by_cases hxb : x = b
    · rw [hxb] at hx ⊢
      exact hhome i hx
    · rw [hrest x hxb] at hu
      exact h.placed.home x i hx hu
  · intro x i hx href
    dsimp only at hx href ⊢
    rw [(hkeys x).2.1]
    by_cases hxb : x = b
    · rw [hxb] at hx ⊢
      exact hhome i hx
    · rw [hrest x hxb] at href
      exact h.placed.bit x i hx href
  · intro i a x hbefore hd hk
    dsimp only at hbefore hd hk ⊢
    rw [(hkeys a).1, (hkeys x).1] at hd
    rw [(hkeys a).2.1, (hkeys x).2.1] at hk
    by_cases hxb : x = b
    · rw [hxb] at hbefore hd hk
      have hmem : b ∈ (c.bucket i).list :=
        hbefore.subset (List.mem_cons_of_mem a List.mem_cons_self)
      obtain rfl := h.lists.apart b _ _ hb hmem
      exact absurd ⟨hd.trans hdev, hk.trans hblock⟩ (hfirst a hbefore)
    · rw [hrest x hxb]
      exact h.placed.first i a x hbefore hd hk
  · intro p x hp
    dsimp only
    rw [hrest x]
    · exact h.off p x hp
    · rintro rfl
      exact h.listed hb p hp
  · intro p x z hp hv hne hkey
    dsimp only at hv hkey ⊢
    rw [(hkeys x).2.2] at hv
    unfold Buf.SameKey at hkey
    rw [(hkeys z).1, (hkeys x).1, (hkeys z).2.1, (hkeys x).2.1] at hkey
    by_cases hz : z = b
    · rw [hz, hdev, hblock] at hkey
      exact absurd ⟨hkey.1.symm, hkey.2.symm⟩ (halone p x hp hv)
    · rw [hrest z hz]
      exact h.gone p x z hp hv hne hkey

/-- A process puts in the buffer that it took off. -/
theorem Shelves.inserted [DecidableEq P] (h : Shelves out c) {b : B} {p : P} {dev blockno : Nat}
    (hp : out p = some b)
    (halone : ∀ q x, q ≠ p → out q = some x → (c.buf x).valid = true →
      ¬ ((c.buf x).dev = dev ∧ (c.buf x).blockno = blockno))
    (hfresh : ∀ x ∈ (c.bucket (hash blockno)).list,
      (c.buf x).dev = dev ∧ (c.buf x).blockno = blockno → ¬ (c.buf x).Used) :
    Shelves (update out p none) (c.inserted b dev blockno) := by
  have hcases : ∀ {q x}, update out p none q = some x → q ≠ p ∧ out q = some x := by
    intro q x hq
    by_cases hqp : q = p
    · rw [hqp, update_self] at hq
      cases hq
    · rw [update_of_ne hqp] at hq
      exact ⟨hqp, hq⟩
  have hne : ∀ {q x}, q ≠ p → out q = some x → x ≠ b := by
    rintro q x hqp hq rfl
    exact hqp (h.apart q p x hq hp)
  have hout : (fun x ↦ ∃ q, out q = some x) =
      fun x ↦ (∃ q, update out p none q = some x) ∨ x = b := by
    ext x : 1
    refine propext ⟨?_, ?_⟩
    · rintro ⟨q, hq⟩
      by_cases hqp : q = p
      · rw [hqp, hp] at hq
        exact .inr (Option.some.inj hq).symm
      · refine .inl ⟨q, ?_⟩
        rwa [update_of_ne hqp]
    · rintro (⟨q, hq⟩ | rfl)
      · exact ⟨q, (hcases hq).2⟩
      · exact ⟨p, hp⟩
  have hoff : ∀ i, b ∉ (c.bucket i).list := fun i ↦ h.lists.off b i ⟨p, hp⟩
  refine ⟨?_, h.placed.inserted hoff ?_, ?_, ?_, ?_⟩
  · apply Lists.inserted
    · rw [← hout]
      exact h.lists
    · rintro ⟨q, hq⟩
      obtain ⟨hqp, hq⟩ := hcases hq
      exact hne hqp hq rfl
  · intro x hx hkey
    have hnot := hfresh x hx hkey
    unfold Buf.Used at hnot
    rw [not_or, Nat.not_lt, Nat.le_zero] at hnot
    exact ⟨Bool.eq_false_iff.mpr hnot.2, hnot.1⟩
  · intro q r x hq hr
    exact h.apart q r x (hcases hq).2 (hcases hr).2
  · intro q x hq
    obtain ⟨hqp, hq⟩ := hcases hq
    rw [inserted_other c dev blockno (hne hqp hq)]
    exact h.off q x hq
  · intro q x y hq hv hyx hkey
    obtain ⟨hqp, hq⟩ := hcases hq
    have hxb := hne hqp hq
    rw [inserted_other c dev blockno hxb] at hv hkey
    by_cases hy : y = b
    · rw [hy, inserted_self] at hkey
      exact absurd ⟨hkey.1.symm, hkey.2.symm⟩ (halone q x hqp hq hv)
    · rw [inserted_other c dev blockno hy] at hkey ⊢
      exact h.gone q x y hq hv hyx hkey

/-! ### The sleep locks -/

/-- The buffers whose sleep locks the processes hold, each by one. -/
structure Locks (lock : P → Option B) (c : Bcache B D) : Prop where
  locked : ∀ p b, lock p = some b → (c.buf b).locked = true
  owner : ∀ p q b, lock p = some b → lock q = some b → p = q

omit [DecidableEq B] in
/-- The sleep locks are the same. -/
theorem Locks.same {lock : P → Option B} (h : Locks lock c)
    (hlocked : ∀ b, (c'.buf b).locked = (c.buf b).locked) : Locks lock c' := by
  refine ⟨?_, h.owner⟩
  intro p b hp
  rw [hlocked]
  exact h.locked p b hp

section

variable [DecidableEq P]

omit [DecidableEq B] in
/-- A free sleep lock is taken. -/
theorem Locks.acquire {lock : P → Option B} (h : Locks lock c) {p : P} {b : B}
    (hfree : (c.buf b).locked = false) (hb : (c'.buf b).locked = true)
    (hrest : ∀ x, x ≠ b → (c'.buf x).locked = (c.buf x).locked) :
    Locks (update lock p (some b)) c' := by
  have hold : ∀ q, lock q ≠ some b := by
    intro q hq
    rw [h.locked q b hq] at hfree
    cases hfree
  have hcases : ∀ {q x}, update lock p (some b) q = some x →
      (q = p ∧ x = b) ∨ (lock q = some x ∧ x ≠ b) := by
    intro q x hq
    by_cases hqp : q = p
    · rw [hqp, update_self] at hq
      exact .inl ⟨hqp, (Option.some.inj hq).symm⟩
    · rw [update_of_ne hqp] at hq
      refine .inr ⟨hq, ?_⟩
      rintro rfl
      exact hold q hq
  refine ⟨?_, ?_⟩
  · intro q x hq
    rcases hcases hq with ⟨-, rfl⟩ | ⟨hq', hx⟩
    · exact hb
    · rw [hrest x hx]
      exact h.locked q x hq'
  · intro q r x hq hr
    rcases hcases hq with ⟨rfl, hx⟩ | ⟨hq', hx⟩
    · rcases hcases hr with ⟨hrp, -⟩ | ⟨-, hx'⟩
      · exact hrp.symm
      · exact absurd hx hx'
    · rcases hcases hr with ⟨-, hx'⟩ | ⟨hr', -⟩
      · exact absurd hx' hx
      · exact h.owner q r x hq' hr'

omit [DecidableEq B] in
/-- A sleep lock is given back. -/
theorem Locks.release {lock : P → Option B} (h : Locks lock c) {p : P} {b : B}
    (hp : lock p = some b) (hrest : ∀ x, x ≠ b → (c'.buf x).locked = (c.buf x).locked) :
    Locks (update lock p none) c' := by
  have hcases : ∀ {q x}, update lock p none q = some x → q ≠ p ∧ lock q = some x := by
    intro q x hq
    by_cases hqp : q = p
    · rw [hqp, update_self] at hq
      cases hq
    · rw [update_of_ne hqp] at hq
      exact ⟨hqp, hq⟩
  refine ⟨?_, ?_⟩
  · intro q x hq
    obtain ⟨hqp, hq⟩ := hcases hq
    rw [hrest]
    · exact h.locked q x hq
    · rintro rfl
      exact hqp (h.owner q p x hq hp)
  · intro q r x hq hr
    exact h.owner q r x (hcases hq).2 (hcases hr).2

end

end Xv6K210.Buffer
