import Mathlib.Data.Fintype.Card
import Xv6K210.Base.Recency
import Xv6K210.Base.RoundRobin
import Xv6K210.Buffer.Cache

/-!
# The clock

What `clock_victim` does to a bucket: two rounds are enough to find a buffer that
is not in use, and the hand stays in the list.
-/

namespace Xv6K210.Buffer

open Xv6K210.Base Prog Function

variable {B D : Type} [DecidableEq B]

/-! ### Places in a list -/

/-- The place of the hand; the head is where the first buffer is. -/
def place (l : List B) : Option B → Nat
  | none => 0
  | some b => l.idxOf b

/-- The hand stands in the list, or at the head. -/
def Bucket.HandIn (k : Bucket B) : Prop := ∀ b, k.hand = some b → b ∈ k.list

/-- The buffer that is scanned stands at the place of the hand. -/
theorem scanned_spec {l : List B} {hand : Option B} (hin : ∀ b, hand = some b → b ∈ l) {b : B}
    (h : hand.or l.head? = some b) : b ∈ l ∧ l.idxOf b = place l hand := by
  cases hand with
  | some a =>
    obtain rfl : a = b := Option.some.inj h
    exact ⟨hin a rfl, rfl⟩
  | none =>
    cases l with
    | nil => cases h
    | cons a l =>
      obtain rfl : a = b := Option.some.inj h
      exact ⟨List.mem_cons_self, by simp [place]⟩

/-- What comes next is in the list. -/
theorem next_mem {l : List B} {b b' : B} (h : next l b = some b') : b' ∈ l :=
  List.mem_of_getElem? h

/-- The hand goes on by one place, and from the last one to the head. -/
theorem place_next {l : List B} (hnodup : l.Nodup) {b : B} (hb : b ∈ l) :
    place l (next l b) = (l.idxOf b + 1) % l.length := by
  have hlt := List.idxOf_lt_length_iff.mpr hb
  unfold next
  rcases Nat.lt_or_ge (l.idxOf b + 1) l.length with hnext | hend
  · rw [List.getElem?_eq_getElem hnext, Nat.mod_eq_of_lt hnext]
    exact hnodup.idxOf_getElem _ hnext
  · rw [List.getElem?_eq_none hend]
    have hlen : l.idxOf b + 1 = l.length := by omega
    rw [hlen, Nat.mod_self]
    rfl

/-- The hand does not stay at a buffer. -/
theorem next_ne {l : List B} (hnodup : l.Nodup) {b : B} : next l b ≠ some b := by
  intro h
  obtain ⟨hlt, hget⟩ := List.getElem?_eq_some_iff.mp h
  have hidx := hnodup.idxOf_getElem _ hlt
  rw [hget] at hidx
  omega

/-- Nothing is scanned before the buffer where the hand stands. -/
theorem ahead_place {l : List B} {hand : Option B} {b : B} (hb : b ∈ l)
    (hhand : l.idxOf b = place l hand) : ahead l.length (place l hand) (l.idxOf b) = 0 := by
  have hbl := List.idxOf_lt_length_iff.mpr hb
  have hcalc := ahead_add (n := l.length) (place l hand) (i := 0) (by omega)
  rw [Nat.add_zero, ← hhand, Nat.mod_eq_of_lt hbl] at hcalc
  rw [← hhand]
  exact hcalc

/-- How many buffers are scanned before `x` is chosen, when it is not in use. -/
def wait (l : List B) (hand : Option B) (x : B) (referenced : Bool) : Nat :=
  ahead l.length (place l hand) (l.idxOf x) + if referenced then l.length else 0

private theorem wait_lt {l : List B} (hand : Option B) {x : B} (hx : x ∈ l) (referenced : Bool) :
    wait l hand x referenced < 2 * l.length := by
  have hlt := ahead_lt (place l hand) (List.idxOf_lt_length_iff.mpr hx)
  unfold wait
  split <;> omega

/-- The hand passes over another buffer. -/
theorem wait_other {l : List B} (hnodup : l.Nodup) {hand : Option B} {b x : B}
    (hb : b ∈ l) (hhand : l.idxOf b = place l hand) (hx : x ∈ l) (hne : b ≠ x)
    (referenced : Bool) : wait l (next l b) x referenced + 1 = wait l hand x referenced := by
  have hbl := List.idxOf_lt_length_iff.mpr hb
  have hxl := List.idxOf_lt_length_iff.mpr hx
  have hzero := ahead_place hb hhand
  have hpos : ahead l.length (place l hand) (l.idxOf b) <
      ahead l.length (place l hand) (l.idxOf x) := by
    rw [hzero]
    apply Nat.pos_of_ne_zero
    intro h
    rw [← hzero] at h
    exact hne (List.idxOf_inj hb |>.mp (ahead_inj hxl hbl h).symm)
  have hmove := ahead_move hbl hxl hpos
  unfold wait
  rw [place_next hnodup hb, hmove, hzero]
  omega

/-- The hand passes over the buffer itself and clears its bit. -/
theorem wait_self {l : List B} (hnodup : l.Nodup) {hand : Option B} {x : B} (hx : x ∈ l)
    (hhand : l.idxOf x = place l hand) :
    wait l (next l x) x false + 1 = wait l hand x true := by
  have hxl := List.idxOf_lt_length_iff.mpr hx
  have hzero := ahead_place hx hhand
  have hlast := ahead_behind hxl
  unfold wait
  rw [place_next hnodup hx, hlast, hzero, if_neg (by simp), if_pos rfl]
  omega

/-! ### The loop -/

/-- The buffers are the same but for the bits of the clock, some of which were cleared. -/
structure Marked (c c' : Bcache B D) : Prop where
  valid : ∀ b, (c'.buf b).valid = (c.buf b).valid
  dev : ∀ b, (c'.buf b).dev = (c.buf b).dev
  blockno : ∀ b, (c'.buf b).blockno = (c.buf b).blockno
  refcnt : ∀ b, (c'.buf b).refcnt = (c.buf b).refcnt
  locked : ∀ b, (c'.buf b).locked = (c.buf b).locked
  data : ∀ b, (c'.buf b).data = (c.buf b).data
  bit : ∀ b, (c'.buf b).referenced = true → (c.buf b).referenced = true
  disk : c'.disk = c.disk

omit [DecidableEq B] in
/-- Neither buffers nor disk changed. -/
theorem Marked.of_buf {c c' : Bcache B D} (hbuf : c'.buf = c.buf) (hdisk : c'.disk = c.disk) :
    Marked c c' := by
  refine ⟨?_, ?_, ?_, ?_, ?_, ?_, ?_, hdisk⟩
  all_goals
    intro b
    rw [hbuf]
  exact id

omit [DecidableEq B] in
/-- Nothing was marked. -/
theorem Marked.refl (c : Bcache B D) : Marked c c := .of_buf rfl rfl

omit [DecidableEq B] in
/-- Two rounds of marks are one. -/
theorem Marked.trans {c c' c'' : Bcache B D} (h : Marked c c') (h' : Marked c' c'') :
    Marked c c'' := by
  constructor
  · intro b
    rw [h'.valid, h.valid]
  · intro b
    rw [h'.dev, h.dev]
  · intro b
    rw [h'.blockno, h.blockno]
  · intro b
    rw [h'.refcnt, h.refcnt]
  · intro b
    rw [h'.locked, h.locked]
  · intro b
    rw [h'.data, h.data]
  · intro b hbit
    exact h.bit b (h'.bit b hbit)
  · rw [h'.disk, h.disk]

/-- The bit of a buffer is cleared. -/
theorem Marked.clear (c : Bcache B D) (b : B) :
    Marked c { c with buf := update c.buf b { c.buf b with referenced := false } } := by
  have hfield : ∀ {α : Type} (get : Buf D → α),
      get { c.buf b with referenced := false } = get (c.buf b) → ∀ b',
        get (update c.buf b { c.buf b with referenced := false } b') =
          get (c.buf b') := by
    intro α get hget b'
    by_cases hb : b' = b
    · rw [hb, update_self, hget]
    · rw [update_of_ne hb]
  refine ⟨hfield Buf.valid rfl, hfield Buf.dev rfl, hfield Buf.blockno rfl, hfield Buf.refcnt rfl,
    hfield Buf.locked rfl, hfield Buf.data rfl, fun b' ↦ ?_, rfl⟩
  dsimp only
  by_cases hb : b' = b
  · rw [hb, update_self]
    intro hno
    cases hno
  · rw [update_of_ne hb]
    exact id

/-- What the clock leaves alone: the lists, the other buckets, and the buffers but for their
bits. -/
structure Scanned (i : Fin nbucket) (c c' : Bcache B D) : Prop where
  marked : Marked c c'
  list : (c'.bucket i).list = (c.bucket i).list
  other : ∀ j, j ≠ i → c'.bucket j = c.bucket j
  hand : (c'.bucket i).HandIn

/-- A scan of bucket `i`. A buffer that is found is not in use and the hand does not stand at it;
when none is found in two rounds, all are in use. -/
theorem clockLoop_spec (i : Fin nbucket) (n : Nat) {c : Bcache B D}
    (hnodup : (c.bucket i).list.Nodup) (hhand : (c.bucket i).HandIn) :
    Ensures (clockLoop i n) c fun r c' ↦ Scanned i c c' ∧
      match r with
      | some b => b ∈ (c.bucket i).list ∧ (c.buf b).refcnt = 0 ∧ (c'.bucket i).hand ≠ some b
      | none => ∀ x ∈ (c.bucket i).list, (c.buf x).refcnt = 0 →
          n ≤ wait (c.bucket i).list (c.bucket i).hand x (c.buf x).referenced := by
  induction n generalizing c with
  | zero => exact ensures_pure.mpr ⟨⟨.refl c, rfl, fun _ _ ↦ rfl, hhand⟩, fun _ _ _ ↦ Nat.zero_le _⟩
  | succ n ih =>
    rw [clockLoop, ensures_bind, ensures_get]
    split
    next hnone =>
      -- the bucket is empty
      refine ensures_pure.mpr ⟨⟨.refl c, rfl, fun _ _ ↦ rfl, hhand⟩, fun x hx _ ↦ ?_⟩
      rw [Option.or_eq_none_iff, List.head?_eq_none_iff] at hnone
      rw [hnone.2] at hx
      cases hx
    next b hscan =>
      obtain ⟨hb, hplace⟩ := scanned_spec hhand hscan
      set l := (c.bucket i).list with hl
      set c1 : Bcache B D := { c with
        bucket := update c.bucket i { c.bucket i with hand := next l b } } with hc1
      have hbucket : c1.bucket i = { c.bucket i with hand := next l b } :=
        update_self _ _ _
      have hlist : (c1.bucket i).list = l := by rw [hbucket]
      have hmoved : (c1.bucket i).HandIn := by
        intro b' hb'
        rw [hbucket] at hb' ⊢
        exact next_mem hb'
      have hother : ∀ j, j ≠ i → c1.bucket j = c.bucket j :=
        fun j hj ↦ update_of_ne hj _ _
      have hmark1 : Marked c c1 := .of_buf rfl rfl
      unfold setBucket
      rw [ensures_bind, ensures_modify, ensures_ite, ensures_ite]
      refine ⟨fun hused ↦ ?_, fun hunused ↦ ⟨fun hbit ↦ ?_, fun hbit ↦ ?_⟩⟩
      · -- the buffer is in use
        have hnext := ih (c := c1) (by rw [hlist]; exact hnodup) hmoved
        apply hnext.mono
        rintro r c' ⟨hs, hr⟩
        refine ⟨⟨hmark1.trans hs.marked, hs.list.trans hlist,
          fun j hj ↦ (hs.other j hj).trans (hother j hj), hs.hand⟩, ?_⟩
        cases r with
        | some x =>
          dsimp only at hr ⊢
          rw [hlist] at hr
          exact hr
        | none =>
          intro x hx hzero
          have hne : b ≠ x := by
            rintro rfl
            exact hused hzero
          have hle := hr x (by rw [hlist]; exact hx) hzero
          rw [hlist, hbucket] at hle
          have hwait := wait_other hnodup hb hplace hx hne (c.buf x).referenced
          change n ≤ wait l (next l b) x (c.buf x).referenced at hle
          omega
      · -- the bit is cleared
        unfold setBuf
        rw [ensures_bind, ensures_modify]
        set c2 : Bcache B D := { c1 with
          buf := update c1.buf b { c1.buf b with referenced := false } } with hc2
        have hmark : Marked c c2 := hmark1.trans (Marked.clear c1 b)
        have hnext := ih (c := c2) (by change (c1.bucket i).list.Nodup; rw [hlist]; exact hnodup)
          hmoved
        apply hnext.mono
        rintro r c' ⟨hs, hr⟩
        refine ⟨⟨hmark.trans hs.marked, hs.list.trans hlist,
          fun j hj ↦ (hs.other j hj).trans (hother j hj), hs.hand⟩, ?_⟩
        cases r with
        | some x =>
          dsimp only at hr ⊢
          rw [hmark.refcnt] at hr
          change x ∈ (c1.bucket i).list ∧ _ at hr
          rw [hlist] at hr
          exact hr
        | none =>
          intro x hx hzero
          have hle := hr x (by change x ∈ (c1.bucket i).list; rw [hlist]; exact hx)
            (by rw [hmark.refcnt]; exact hzero)
          change n ≤ wait (c1.bucket i).list (c1.bucket i).hand x (c2.buf x).referenced at hle
          rw [hlist, hbucket] at hle
          by_cases hbx : b = x
          · subst hbx
            have hbit2 : (c2.buf b).referenced = false := by
              change (update c1.buf b _ b).referenced = false
              rw [update_self]
            rw [hbit2] at hle
            have hwait := wait_self hnodup hb hplace
            rw [hbit]
            change n ≤ wait l (next l b) b false at hle
            omega
          · have hbit2 : (c2.buf x).referenced = (c.buf x).referenced := by
              change (update c1.buf b _ x).referenced = _
              rw [update_of_ne (Ne.symm hbx)]
            rw [hbit2] at hle
            have hwait := wait_other hnodup hb hplace hx hbx (c.buf x).referenced
            change n ≤ wait l (next l b) x (c.buf x).referenced at hle
            omega
      · -- the buffer is chosen
        refine ensures_pure.mpr ⟨⟨hmark1, hlist, hother, hmoved⟩, hb, not_not.mp hunused, ?_⟩
        change (c1.bucket i).hand ≠ some b
        rw [hbucket]
        exact next_ne hnodup

/-! ### The lists -/

/-- Each buffer is on one list, or is one of those that were taken off (`out`); each hand stands in
its list. -/
structure Lists (out : B → Prop) (c : Bcache B D) : Prop where
  nodup : ∀ i, (c.bucket i).list.Nodup
  apart : ∀ b i j, b ∈ (c.bucket i).list → b ∈ (c.bucket j).list → i = j
  cover : ∀ b, out b ∨ ∃ i, b ∈ (c.bucket i).list
  off : ∀ b i, out b → b ∉ (c.bucket i).list
  hand : ∀ i, (c.bucket i).HandIn

variable {out : B → Prop} {c c' : Bcache B D}

/-- The bucket after a buffer has been taken off. -/
structure Detached (i : Fin nbucket) (b : B) (c c' : Bcache B D) : Prop where
  marked : Marked c c'
  list : (c'.bucket i).list = (c.bucket i).list.erase b
  other : ∀ j, j ≠ i → c'.bucket j = c.bucket j
  hand : (c'.bucket i).HandIn

omit [DecidableEq B] in
/-- A scan keeps the lists. -/
theorem Scanned.lists {i : Fin nbucket} (h : Scanned i c c') (hl : Lists out c) : Lists out c' := by
  have hlist : ∀ j, (c'.bucket j).list = (c.bucket j).list := by
    intro j
    by_cases hj : j = i
    · rw [hj, h.list]
    · rw [h.other j hj]
  constructor
  · intro j
    rw [hlist]
    exact hl.nodup j
  · intro b j k
    rw [hlist, hlist]
    exact hl.apart b j k
  · intro b
    simp only [hlist]
    exact hl.cover b
  · intro b j
    rw [hlist]
    exact hl.off b j
  · intro j
    by_cases hj : j = i
    · rw [hj]
      exact h.hand
    · rw [h.other j hj]
      exact hl.hand j

/-- The victim leaves its bucket, and nothing else does. -/
theorem Detached.mem {i : Fin nbucket} {b : B} (h : Detached i b c c') (hl : Lists out c)
    (hb : b ∈ (c.bucket i).list) (x : B) (j : Fin nbucket) :
    x ∈ (c'.bucket j).list ↔ x ∈ (c.bucket j).list ∧ x ≠ b := by
  by_cases hj : j = i
  · subst hj
    rw [h.list, (hl.nodup j).mem_erase_iff, and_comm]
  · rw [h.other j hj]
    constructor
    · intro hx
      refine ⟨hx, ?_⟩
      rintro rfl
      exact hj (hl.apart x j i hx hb)
    · exact And.left

/-- The order in a list after a buffer has been taken off. -/
theorem Detached.sublist {i : Fin nbucket} {b : B} (h : Detached i b c c') (j : Fin nbucket) :
    (c'.bucket j).list.Sublist (c.bucket j).list := by
  by_cases hj : j = i
  · rw [hj, h.list]
    exact List.erase_sublist
  · rw [h.other j hj]

/-- The victim is in no bucket. -/
theorem Detached.lists {i : Fin nbucket} {b : B} (h : Detached i b c c') (hl : Lists out c)
    (hb : b ∈ (c.bucket i).list) : Lists (fun x ↦ out x ∨ x = b) c' := by
  constructor
  · intro j
    exact (hl.nodup j).sublist (h.sublist j)
  · intro x j k hj hk
    exact hl.apart x j k ((h.sublist j).subset hj) ((h.sublist k).subset hk)
  · intro x
    by_cases hx : x = b
    · exact .inl (.inr hx)
    · rcases hl.cover x with hout | ⟨j, hj⟩
      · exact .inl (.inl hout)
      · exact .inr ⟨j, (h.mem hl hb x j).mpr ⟨hj, hx⟩⟩
  · rintro x j (hout | rfl) hmem
    · exact hl.off x j hout ((h.sublist j).subset hmem)
    · exact ((h.mem hl hb x j).mp hmem).2 rfl
  · intro j
    by_cases hj : j = i
    · rw [hj]
      exact h.hand
    · rw [h.other j hj]
      exact hl.hand j

/-- Buffers in use, with contents or with their bit set are in the bucket of their block; and of the
buffers with one block only the first may be in use or have contents. -/
structure Placed (c : Bcache B D) : Prop where
  home : ∀ b i, b ∈ (c.bucket i).list → 0 < (c.buf b).refcnt ∨ (c.buf b).valid = true →
    hash (c.buf b).blockno = i
  bit : ∀ b i, b ∈ (c.bucket i).list → (c.buf b).referenced = true → hash (c.buf b).blockno = i
  first : ∀ i a b, Before (c.bucket i).list a b → (c.buf a).dev = (c.buf b).dev →
    (c.buf a).blockno = (c.buf b).blockno → (c.buf b).valid = false ∧ (c.buf b).refcnt = 0

omit [DecidableEq B] in
/-- The lists lose buffers at most, and the buffers change their bits at most. -/
theorem Placed.marked (h : Placed c) (hm : Marked c c')
    (hsub : ∀ i, (c'.bucket i).list.Sublist (c.bucket i).list) : Placed c' := by
  constructor
  · intro b i hb
    rw [hm.refcnt, hm.valid, hm.blockno]
    exact h.home b i ((hsub i).subset hb)
  · intro b i hb hbit
    rw [hm.blockno]
    exact h.bit b i ((hsub i).subset hb) (hm.bit b hbit)
  · intro i a b hbefore
    rw [hm.dev, hm.dev, hm.blockno, hm.blockno, hm.valid, hm.refcnt]
    exact h.first i a b (hbefore.trans (hsub i))

omit [DecidableEq B] in
/-- Two buffers of a bucket that are in use or have contents cache different blocks. -/
theorem Placed.unique (h : Placed c) {i : Fin nbucket} {a b : B}
    (ha : a ∈ (c.bucket i).list) (hb : b ∈ (c.bucket i).list)
    (hua : 0 < (c.buf a).refcnt ∨ (c.buf a).valid = true)
    (hub : 0 < (c.buf b).refcnt ∨ (c.buf b).valid = true) (hdev : (c.buf a).dev = (c.buf b).dev)
    (hblock : (c.buf a).blockno = (c.buf b).blockno) : a = b := by
  by_contra hne
  rcases before_total ha hb hne with hab | hba
  · obtain ⟨hvalid, hzero⟩ := h.first i a b hab hdev hblock
    rw [hvalid, hzero] at hub
    simp at hub
  · obtain ⟨hvalid, hzero⟩ := h.first i b a hba hdev.symm hblock.symm
    rw [hvalid, hzero] at hua
    simp at hua

/-- The first region of `bget`. The buffer that is found is the first with its block. -/
theorem lookup_spec (hl : Lists out c) (dev blockno : Nat) :
    Ensures (lookup dev blockno) c fun r c' ↦
      match r with
      | none => c = c' ∧ ∀ x ∈ (c.bucket (hash blockno)).list,
          ¬ ((c.buf x).dev = dev ∧ (c.buf x).blockno = blockno)
      | some b => b ∈ (c.bucket (hash blockno)).list ∧ (c.buf b).dev = dev ∧
          (c.buf b).blockno = blockno ∧
          (∀ a, Before (c.bucket (hash blockno)).list a b →
            ¬ ((c.buf a).dev = dev ∧ (c.buf a).blockno = blockno)) ∧
          c' = { c with
            buf := update c.buf b
              { c.buf b with refcnt := (c.buf b).refcnt + 1, referenced := true } } := by
  unfold lookup
  rw [ensures_bind, ensures_get]
  split
  next hnone =>
    refine ensures_pure.mpr ⟨rfl, fun x hx hkey ↦ ?_⟩
    have hno := List.find?_eq_none.mp hnone x hx
    simp [Buf.holds, hkey] at hno
  next b hsome =>
    have hkey := List.find?_some hsome
    simp only [Buf.holds, decide_eq_true_iff] at hkey
    unfold setBuf
    simp only [ensures_bind, ensures_modify, ensures_pure]
    refine ⟨List.mem_of_find?_eq_some hsome, hkey.1, hkey.2, fun a hbefore hsame ↦ ?_, trivial⟩
    have hno := find?_before (hl.nodup _) hsome hbefore
    simp [Buf.holds, hsame] at hno

/-- The cache after the third region of `bget`. -/
def Bcache.inserted (c : Bcache B D) (b : B) (dev blockno : Nat) : Bcache B D :=
  { c with
    bucket := update c.bucket (hash blockno)
      { c.bucket (hash blockno) with list := b :: (c.bucket (hash blockno)).list }
    buf := update c.buf b
      { c.buf b with dev, blockno, valid := false, refcnt := 1, referenced := true } }

/-- What `insert` does. -/
theorem insert_spec (c : Bcache B D) (b : B) (dev blockno : Nat) :
    Ensures (insert b dev blockno) c fun _ c' ↦ c' = c.inserted b dev blockno := by
  unfold insert setBucket setBuf
  simp only [ensures_bind, ensures_modify]
  rfl

/-- The buffer comes to the front of the bucket of its block. -/
theorem inserted_list (c : Bcache B D) (b : B) (dev blockno : Nat) (i : Fin nbucket) :
    ((c.inserted b dev blockno).bucket i).list =
      if i = hash blockno then b :: (c.bucket i).list else (c.bucket i).list := by
  unfold Bcache.inserted
  dsimp only
  split
  next hi => rw [hi, update_self]
  next hi => rw [update_of_ne hi]

/-- The buffer that was inserted. -/
theorem inserted_self (c : Bcache B D) (b : B) (dev blockno : Nat) :
    (c.inserted b dev blockno).buf b =
      { c.buf b with dev, blockno, valid := false, refcnt := 1, referenced := true } :=
  update_self _ _ _

/-- Other buffers stay as they are. -/
theorem inserted_other (c : Bcache B D) {b x : B} (dev blockno : Nat) (hx : x ≠ b) :
    (c.inserted b dev blockno).buf x = c.buf x := update_of_ne hx _ _

/-- The victim is in a bucket again. -/
theorem Lists.inserted {b : B} (h : Lists (fun x ↦ out x ∨ x = b) c) (hb : ¬ out b)
    (dev blockno : Nat) :
    Lists out (c.inserted b dev blockno) := by
  have hnot : ∀ i, b ∉ (c.bucket i).list := fun i ↦ h.off b i (.inr rfl)
  have hmem : ∀ x i, x ∈ ((c.inserted b dev blockno).bucket i).list ↔
      x ∈ (c.bucket i).list ∨ (x = b ∧ i = hash blockno) := by
    intro x i
    rw [inserted_list]
    split
    next hi => simp [hi, or_comm]
    next hi => simp [hi]
  constructor
  · intro i
    rw [inserted_list]
    split
    · exact List.nodup_cons.mpr ⟨hnot i, h.nodup i⟩
    · exact h.nodup i
  · intro x i j hi hj
    rcases (hmem x i).mp hi with hold | ⟨hx, hi⟩
    · rcases (hmem x j).mp hj with hold' | ⟨hx, -⟩
      · exact h.apart x i j hold hold'
      · rw [hx] at hold
        exact absurd hold (hnot i)
    · rcases (hmem x j).mp hj with hold' | ⟨-, hj⟩
      · rw [hx] at hold'
        exact absurd hold' (hnot j)
      · rw [hi, hj]
  · intro x
    rcases h.cover x with (hout | rfl) | ⟨i, hi⟩
    · exact .inl hout
    · exact .inr ⟨hash blockno, (hmem x _).mpr (.inr ⟨rfl, rfl⟩)⟩
    · exact .inr ⟨i, (hmem x i).mpr (.inl hi)⟩
  · intro x i hout hmem'
    rcases (hmem x i).mp hmem' with hi | ⟨hx, -⟩
    · exact h.off x i (.inl hout) hi
    · rw [hx] at hout
      exact hb hout
  · intro i x hx
    rw [hmem]
    left
    apply h.hand i
    unfold Bcache.inserted at hx
    by_cases hi : i = hash blockno
    · subst hi
      dsimp only at hx
      rw [update_self] at hx
      exact hx
    · dsimp only at hx
      rw [update_of_ne hi] at hx
      exact hx

/-- A victim is put before buffers that have other blocks, or are not in use and without
contents. -/
theorem Placed.inserted (h : Placed c) {b : B} (hb : ∀ i, b ∉ (c.bucket i).list)
    {dev blockno : Nat} (hfresh : ∀ x ∈ (c.bucket (hash blockno)).list,
      (c.buf x).dev = dev ∧ (c.buf x).blockno = blockno →
        (c.buf x).valid = false ∧ (c.buf x).refcnt = 0) :
    Placed (c.inserted b dev blockno) := by
  have hne : ∀ {x i}, x ∈ (c.bucket i).list → x ≠ b := by
    rintro x i hx rfl
    exact hb i hx
  have hhome : ∀ x i, x ∈ ((c.inserted b dev blockno).bucket i).list →
      (x ∈ (c.bucket i).list → hash (c.buf x).blockno = i) →
        hash ((c.inserted b dev blockno).buf x).blockno = i := by
    intro x i hx hold
    rw [inserted_list] at hx
    by_cases hxb : x = b
    · subst hxb
      rw [inserted_self]
      split at hx
      next hi => exact hi.symm
      next => exact absurd hx (hb i)
    · rw [inserted_other c dev blockno hxb]
      apply hold
      split at hx
      · exact (List.mem_cons.mp hx).resolve_left hxb
      · exact hx
  refine ⟨?_, ?_, ?_⟩
  · intro x i hx hused
    apply hhome x i hx
    intro hold
    rw [inserted_other c dev blockno (hne hold)] at hused
    exact h.home x i hold hused
  · intro x i hx hbit
    apply hhome x i hx
    intro hold
    rw [inserted_other c dev blockno (hne hold)] at hbit
    exact h.bit x i hold hbit
  · intro i a x hbefore hdev hblock
    rw [inserted_list] at hbefore
    split at hbefore
    next hi =>
      unfold Before at hbefore
      rcases List.sublist_cons_iff.mp hbefore with hrest | ⟨r, heq, hsub⟩
      · have ha := hne (hrest.subset List.mem_cons_self)
        have hx := hne (hrest.subset (List.mem_cons_of_mem a List.mem_cons_self))
        rw [inserted_other c dev blockno ha, inserted_other c dev blockno hx] at hdev hblock
        rw [inserted_other c dev blockno hx]
        exact h.first i a x hrest hdev hblock
      · obtain ⟨rfl, rfl⟩ := List.cons_eq_cons.mp heq
        have hmem := hsub.subset List.mem_cons_self
        have hx := hne hmem
        rw [inserted_self, inserted_other c dev blockno hx] at hdev hblock
        rw [hi] at hmem
        rw [inserted_other c dev blockno hx]
        exact hfresh x hmem ⟨hdev.symm, hblock.symm⟩
    next =>
      have ha := hne (hbefore.subset List.mem_cons_self)
      have hx := hne (hbefore.subset (List.mem_cons_of_mem a List.mem_cons_self))
      rw [inserted_other c dev blockno ha, inserted_other c dev blockno hx] at hdev hblock
      rw [inserted_other c dev blockno hx]
      exact h.first i a x hbefore hdev hblock

variable [Fintype B]

/-- A victim is taken off its list; there is none only when all buffers of the bucket are in
use. -/
theorem detach_spec (i : Fin nbucket) (hl : Lists out c) :
    Ensures (detach (Fintype.card B) i) c fun r c' ↦
      match r with
      | none => Scanned i c c' ∧ ∀ x ∈ (c.bucket i).list, (c.buf x).refcnt ≠ 0
      | some b => b ∈ (c.bucket i).list ∧ (c.buf b).refcnt = 0 ∧ Detached i b c c' := by
  unfold detach clockVictim
  apply (clockLoop_spec i (2 * Fintype.card B) (hl.nodup i) (hl.hand i)).bind
  rintro r c1 ⟨hs, hr⟩
  cases r with
  | none =>
    refine ensures_pure.mpr ⟨hs, fun x hx hzero ↦ ?_⟩
    have hle := hr x hx hzero
    have hlt := wait_lt (c.bucket i).hand hx (c.buf x).referenced
    have hcard := (hl.nodup i).length_le_card
    omega
  | some b =>
    obtain ⟨hb, hzero, hhand⟩ := hr
    unfold setBucket
    simp only [ensures_bind, ensures_modify, ensures_pure]
    refine ⟨hb, hzero, hs.marked.trans (.of_buf rfl rfl), ?_, ?_, ?_⟩
    · change (update c1.bucket i _ i).list = _
      rw [update_self, ← hs.list]
    · intro j hj
      change update c1.bucket i _ j = _
      rw [update_of_ne hj, hs.other j hj]
    · change (update c1.bucket i _ i).HandIn
      rw [update_self]
      intro x hx
      have hmem := hs.hand x hx
      have hne : x ≠ b := by
        rintro rfl
        exact hhand hx
      exact (List.mem_erase_of_ne hne).mpr hmem

end Xv6K210.Buffer
