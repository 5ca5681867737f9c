import Mathlib.Data.List.Nodup
import Mathlib.Data.List.Perm.Subperm
import Xv6K210.Base.Ring
import Xv6K210.Driver.Virtio

/-!
# The virtio disk is a disk

Source `kernel/driver/virtio_disk.c:137–311`. Whatever the order of the steps, the calls refine a
disk that transfers each block at once, between the call and its return; the driver does not panic
unless the device fails, the device finds every chain in order, and nobody sleeps who could go on.
-/

namespace Xv6K210.Virtio

open Base Function

variable {Q B D : Type}

/-- Three updates with one value. -/
theorem update_three {α : Type} (f : Nat → α) (i j k : Nat) (x : α) :
    (∀ n, n = i ∨ n = j ∨ n = k →
      update (update (update f i x) j x) k x n = x) ∧
    ∀ n, ¬ (n = i ∨ n = j ∨ n = k) →
      update (update (update f i x) j x) k x n = f n := by
  simp only [update_apply]
  constructor <;> intro n hn
  · split_ifs <;> first | rfl | tauto
  · split_ifs <;> first | rfl | tauto

/-! ### Descriptors -/

namespace Disk

private theorem allocDesc_eq_some {d d' : Disk B} {i : Nat} (h : d.allocDesc = some (i, d')) :
    i < NUM ∧ d.free i = true ∧ d' = { d with free := update d.free i false } := by
  obtain ⟨i', hi, heq⟩ := Option.map_eq_some_iff.mp h
  obtain ⟨rfl, rfl⟩ := Prod.mk.inj heq
  exact ⟨List.mem_range.mp (List.mem_of_find?_eq_some hi), List.find?_some hi, rfl⟩

private theorem allocDesc_eq_none {d : Disk B} (h : d.allocDesc = none) {i : Nat} (hi : i < NUM) :
    d.free i = false := by
  have hfree := List.find?_eq_none.mp (Option.map_eq_none_iff.mp h) i (List.mem_range.mpr hi)
  simpa using hfree

private theorem freeDesc_eq {d : Disk B} {i : Nat} (hi : i < NUM) (hfree : d.free i = false) :
    d.freeDesc i = some { d with
      desc := update d.desc i ⟨.null, 0, 0, 0⟩
      free := update d.free i true } := by
  rw [freeDesc, if_neg]
  rintro (hge | htrue)
  · omega
  · rw [hfree] at htrue
    cases htrue

/-- `free_chain` at a descriptor that is not the last. -/
theorem freeChain_next {d : Disk B} {i : Nat} {e : Desc B} {turns : Nat} (he : d.desc i = e)
    (hnext : e.flags &&& descNext ≠ 0) (hi : i < NUM) (hfree : d.free i = false) :
    d.freeChain (turns + 1) i = freeChain turns { d with
      desc := update d.desc i ⟨.null, 0, 0, 0⟩
      free := update d.free i true } e.next := by
  rw [freeChain, freeDesc_eq hi hfree, Option.bind_some, he, if_pos hnext]

private theorem freeChain_last {d : Disk B} {i : Nat} {e : Desc B} {turns : Nat} (he : d.desc i = e)
    (hlast : e.flags &&& descNext = 0) (hi : i < NUM) (hfree : d.free i = false) :
    d.freeChain (turns + 1) i = some { d with
      desc := update d.desc i ⟨.null, 0, 0, 0⟩
      free := update d.free i true } := by
  rw [freeChain, freeDesc_eq hi hfree, Option.bind_some, he, if_neg (not_not_intro hlast)]

end Disk

/-- There are no three free descriptors. -/
def Scarce (free : Nat → Bool) : Prop :=
  ∀ i j k, i < NUM → j < NUM → k < NUM → i ≠ j → i ≠ k → j ≠ k →
    ¬ (free i = true ∧ free j = true ∧ free k = true)

/-- Fewer descriptors are scarce as well. -/
theorem Scarce.mono {free free' : Nat → Bool} (h : Scarce free)
    (hle : ∀ n, free' n = true → free n = true) : Scarce free' :=
  fun i j k hi hj hk hij hik hjk hfree ↦ h i j k hi hj hk hij hik hjk
    ⟨hle i hfree.1, hle j hfree.2.1, hle k hfree.2.2⟩

/-- Of three numbers that are each one of two, two are the same. -/
theorem scarce_of_two {free : Nat → Bool} (i j : Nat)
    (h : ∀ n < NUM, free n = true → n = i ∨ n = j) : Scarce free := by
  intro a b c ha hb hc hab hac hbc hfree
  have := h a ha hfree.1
  have := h b hb hfree.2.1
  have := h c hc hfree.2.2
  omega

namespace Disk

/-- `alloc3_desc` takes three free descriptors, or there are none and it changes none that is in
use. -/
theorem alloc3Desc_cases (d : Disk B) : ∃ x, d.alloc3Desc = some x ∧
    ((∃ i j k, x.2.1 = some (i, j, k) ∧ (i ≠ j ∧ i ≠ k ∧ j ≠ k) ∧
        (∀ n, n = i ∨ n = j ∨ n = k → n < NUM ∧ d.free n = true) ∧
        x.1 = { d with
          free := update (update (update d.free i false) j false) k
            false }) ∨
      x.2.1 = none ∧ Scarce d.free ∧ ∃ desc, x.1 = { d with desc } ∧
        ∀ n, d.free n = false → desc n = d.desc n) := by
  unfold alloc3Desc
  cases h1 : d.allocDesc with
  | none =>
    refine ⟨_, rfl, .inr ⟨rfl, scarce_of_two 0 0 fun n hn hfree ↦ ?_, d.desc, rfl, fun _ _ ↦ rfl⟩⟩
    rw [allocDesc_eq_none h1 hn] at hfree
    cases hfree
  | some x1 =>
    obtain ⟨i, d1⟩ := x1
    obtain ⟨hi, hfi, rfl⟩ := allocDesc_eq_some h1
    dsimp only
    cases h2 : allocDesc { d with free := update d.free i false } with
    | none =>
      dsimp only
      rw [freeDesc_eq hi (update_self ..)]
      refine ⟨_, rfl, .inr ⟨rfl, scarce_of_two i i fun n hn hfree ↦ ?_,
        update d.desc i ⟨.null, 0, 0, 0⟩, ?_, fun n hn ↦ ?_⟩⟩
      · by_contra hne
        have hni : n ≠ i := by omega
        have hused := allocDesc_eq_none h2 hn
        dsimp only at hused
        rw [update_of_ne hni, hfree] at hused
        cases hused
      · dsimp only
        rw [update_idem, ← hfi, update_eq_self]
      · refine update_of_ne ?_ _ _
        rintro rfl
        rw [hn] at hfi
        cases hfi
    | some x2 =>
      obtain ⟨j, d2⟩ := x2
      obtain ⟨hj, hfj, rfl⟩ := allocDesc_eq_some h2
      dsimp only at hfj ⊢
      have hji : j ≠ i := by
        rintro rfl
        rw [update_self] at hfj
        cases hfj
      rw [update_of_ne hji] at hfj
      cases h3 : allocDesc { d with free := update (update d.free i false) j false } with
      | none =>
        dsimp only
        rw [freeDesc_eq hi ((update_of_ne hji.symm _ _).trans (update_self ..)),
          Option.bind_some, freeDesc_eq hj ((update_of_ne hji _ _).trans
            (update_self ..))]
        refine ⟨_, rfl, .inr ⟨rfl, scarce_of_two i j fun n hn hfree ↦ ?_,
          update (update d.desc i ⟨.null, 0, 0, 0⟩) j ⟨.null, 0, 0, 0⟩, ?_,
          fun n hn ↦ ?_⟩⟩
        · by_contra hne
          have hni : n ≠ i := by omega
          have hnj : n ≠ j := by omega
          have hused := allocDesc_eq_none h3 hn
          dsimp only at hused
          rw [update_of_ne hnj, update_of_ne hni, hfree] at hused
          cases hused
        · have hrestore : update (update (update (update d.free i
              false) j false) i true) j true = d.free := by
            funext n
            by_cases hnj : n = j
            · rw [hnj, update_self, hfj]
            rw [update_of_ne hnj]
            by_cases hni : n = i
            · rw [hni, update_self, hfi]
            rw [update_of_ne hni, update_of_ne hnj, update_of_ne hni]
          dsimp only
          rw [hrestore]
        · have hni : n ≠ i := by
            rintro rfl
            rw [hn] at hfi
            cases hfi
          have hnj : n ≠ j := by
            rintro rfl
            rw [hn] at hfj
            cases hfj
          rw [update_of_ne hnj, update_of_ne hni]
      | some x3 =>
        obtain ⟨k, d3⟩ := x3
        obtain ⟨hk, hfk, rfl⟩ := allocDesc_eq_some h3
        dsimp only at hfk ⊢
        have hkj : k ≠ j := by
          rintro rfl
          rw [update_self] at hfk
          cases hfk
        rw [update_of_ne hkj] at hfk
        have hki : k ≠ i := by
          rintro rfl
          rw [update_self] at hfk
          cases hfk
        rw [update_of_ne hki] at hfk
        refine ⟨_, rfl, .inl ⟨i, j, k, rfl, ⟨hji.symm, hki.symm, hkj.symm⟩, ?_, rfl⟩⟩
        rintro n (rfl | rfl | rfl)
        · exact ⟨hi, hfi⟩
        · exact ⟨hj, hfj⟩
        · exact ⟨hk, hfk⟩

end Disk

/-- The chain of a request. -/
structure Chain (d : Disk B) (b : B) (sector : Nat) (write : Bool) (i j k : Nat) : Prop where
  apart : i ≠ j ∧ i ≠ k ∧ j ≠ k
  used : ∀ n, n = i ∨ n = j ∨ n = k → n < NUM ∧ d.free n = false
  head : d.desc i = ⟨.ops i, 16, descNext, j⟩
  body : d.desc j = ⟨.data b, 512, (if write then 0 else descWrite) ||| descNext, k⟩
  tail : d.desc k = ⟨.status i, 1, descWrite, 0⟩
  ops : d.ops i = ⟨write, sector⟩
  info : (d.info i).b = some b

namespace Chain

variable {d : Disk B} {b : B} {sector : Nat} {write : Bool} {i j k : Nat}

/-- The device finds the request. -/
theorem request (h : Chain d b sector write i j k) : d.request i = some (b, sector, write, i) := by
  unfold Disk.request
  dsimp only
  rw [h.head]
  dsimp only
  rw [h.body]
  dsimp only
  rw [h.tail]
  dsimp only
  rw [h.ops, if_pos ⟨rfl, rfl, rfl⟩]

/-- A chain stays in order when nobody changes its descriptors, its header and its buffer. -/
theorem congr (h : Chain d b sector write i j k) {d' : Disk B}
    (hdesc : ∀ n, n = i ∨ n = j ∨ n = k → d'.desc n = d.desc n)
    (hfree : ∀ n, n = i ∨ n = j ∨ n = k → d'.free n = false) (hops : d'.ops i = d.ops i)
    (hinfo : (d'.info i).b = (d.info i).b) : Chain d' b sector write i j k where
  apart := h.apart
  used n hn := ⟨(h.used n hn).1, hfree n hn⟩
  head := (hdesc i (.inl rfl)).trans h.head
  body := (hdesc j (.inr (.inl rfl))).trans h.body
  tail := (hdesc k (.inr (.inr rfl))).trans h.tail
  ops := hops.trans h.ops
  info := hinfo.trans h.info

/-- The three descriptors of a chain are freed. -/
theorem freeChain (h : Chain d b sector write i j k) (info : Nat → Info B) : ∃ desc,
    Disk.freeChain NUM { d with info } i = some { d with
      info, desc,
      free := update (update (update d.free i true) j true) k true } ∧
    ∀ n, n ≠ i → n ≠ j → n ≠ k → desc n = d.desc n := by
  obtain ⟨hij, hik, hjk⟩ := h.apart
  have hflags : ((if write then 0 else descWrite) ||| descNext) &&& descNext ≠ 0 := by
    cases write <;> decide
  refine ⟨update (update (update d.desc i ⟨.null, 0, 0, 0⟩) j
    ⟨.null, 0, 0, 0⟩) k ⟨.null, 0, 0, 0⟩, ?_, fun n hi hj hk ↦ ?_⟩
  · have hfree := fun n hn ↦ (h.used n hn).2
    have hlt := fun n hn ↦ (h.used n hn).1
    rw [show NUM = 5 + 3 from rfl,
      Disk.freeChain_next (d := { d with info }) h.head (by decide : descNext &&& descNext ≠ 0)
        (hlt i (.inl rfl))
        (hfree i (.inl rfl)),
      Disk.freeChain_next ((update_of_ne hij.symm _ _).trans h.body) hflags
        (hlt j (.inr (.inl rfl)))
        ((update_of_ne hij.symm _ _).trans (hfree j (.inr (.inl rfl)))),
      Disk.freeChain_last ((update_of_ne hjk.symm _ _).trans
        ((update_of_ne hik.symm _ _).trans h.tail)) (by decide : descWrite &&& descNext = 0)
        (hlt k (.inr (.inr rfl))) ((update_of_ne hjk.symm _ _).trans
          ((update_of_ne hik.symm _ _).trans (hfree k (.inr (.inr rfl)))))]
  · rw [update_of_ne hk, update_of_ne hj, update_of_ne hi]

/-- The driver has made a chain. -/
theorem submit (d : Disk B) (b : B) (sector : Nat) (write : Bool) (hapart : i ≠ j ∧ i ≠ k ∧ j ≠ k)
    (hfree : ∀ n, n = i ∨ n = j ∨ n = k → n < NUM ∧ d.free n = false) :
    Chain (d.submit b sector write i j k) b sector write i j k where
  apart := hapart
  used := hfree
  head := (update_of_ne hapart.2.1 _ _).trans
    ((update_of_ne hapart.1 _ _).trans (update_self ..))
  body := (update_of_ne hapart.2.2 _ _).trans (update_self ..)
  tail := update_self ..
  ops := update_self ..
  info := by
    change (update d.info i _ i).b = _
    rw [update_self]

end Chain

/-! ### The rings -/

/-- From the counter `r` to the counter `w`, both of 16 bits, the ring holds `l`. -/
structure Between (data : Nat → Nat) (r w : Nat) (l : List Nat) : Prop where
  lt : r < 2 ^ 16
  write : w = (r + l.length) % 2 ^ 16
  items : ring NUM data r l.length = l

/-- A number is put into the ring. -/
theorem Between.push {data : Nat → Nat} {r w : Nat} {l : List Nat} (h : Between data r w l)
    (hlen : l.length < NUM) (x : Nat) :
    Between (update data (w % NUM) x) r ((w + 1) % 2 ^ 16) (l ++ [x]) := by
  have hw : w % NUM = (r + l.length) % NUM := by
    rw [h.write, Nat.mod_mod_of_dvd _ (by decide)]
  refine ⟨h.lt, ?_, ?_⟩
  · rw [h.write, List.length_append, List.length_singleton, Nat.mod_add_mod, Nat.add_assoc]
  · rw [List.length_append, List.length_singleton, hw, ring_push data r x hlen, h.items]

/-- The oldest number is taken from the ring. -/
theorem Between.pop {data : Nat → Nat} {r w : Nat} {l : List Nat} (h : Between data r w l)
    (hne : r ≠ w) : ∃ l', l = data (r % NUM) :: l' ∧ Between data ((r + 1) % 2 ^ 16) w l' := by
  cases l with
  | nil =>
    have hw := h.write
    rw [List.length_nil, Nat.add_zero, Nat.mod_eq_of_lt h.lt] at hw
    exact absurd hw.symm hne
  | cons x l =>
    have hitems := h.items
    rw [List.length_cons, ring_pop] at hitems
    obtain ⟨hx, hl⟩ := List.cons.inj hitems
    refine ⟨l, by rw [hx], Nat.mod_lt _ (by decide), ?_, ?_⟩
    · rw [h.write, List.length_cons, Nat.mod_add_mod]
      congr 1
      omega
    · rw [ring_mod (by decide), hl]

/-- What the rings hold fits into them. -/
theorem length_lt_of_nodup {l : List Nat} {x : Nat} (hnodup : (x :: l).Nodup)
    (hlt : ∀ y ∈ x :: l, y < NUM) : l.length < NUM := by
  have hsub : (x :: l).length ≤ (List.range NUM).length :=
    (List.Nodup.subperm hnodup fun y hy ↦ List.mem_range.mpr (hlt y hy)).length_le
  rw [List.length_range, List.length_cons] at hsub
  exact hsub

/-! ### The invariant -/

/-- The descriptors of a process. -/
def Pc.Has : Pc B → Nat → Prop
  | .wait _ _ _ i j k _, n => n = i ∨ n = j ∨ n = k
  | _, _ => False

/-- A process that sleeps could not go on. -/
def Pc.Stays (free : Nat → Bool) (busy : B → Bool) : Pc B → Prop
  | .out => True
  | .alloc _ _ _ asleep => asleep = true → Scarce free
  | .wait b _ _ _ _ _ asleep => asleep = true → busy b = true

/-- With fewer free descriptors and more buffers in use, who slept may go on sleeping. -/
private theorem Pc.Stays.mono {free free' : Nat → Bool} {busy busy' : B → Bool} {p : Pc B}
    (h : p.Stays free busy) (hfree : ∀ n, free' n = true → free n = true)
    (hbusy : ∀ b, busy b = true → busy' b = true) : p.Stays free' busy' := by
  cases p with
  | out => trivial
  | alloc b sector write asleep => exact fun hasleep ↦ (h hasleep).mono hfree
  | wait b sector write i j k asleep => exact fun hasleep ↦ hbusy b (h hasleep)

/-- The chains that the device has yet to take, has taken and has finished are those of the
processes whose buffers are in its hands; every process has a chain of its own, in order. -/
structure Sound (s : System Q B D) (queued done : List Nat) : Prop where
  avail : Between s.disk.availRing s.devIdx s.disk.availIdx queued
  used : Between s.disk.usedRing s.disk.usedIdx s.disk.usedDevIdx done
  nodup : (queued ++ (s.working ++ done)).Nodup
  head : ∀ x ∈ queued ++ (s.working ++ done), ∃ q b sector write j k asleep,
    s.pc q = .wait b sector write x j k asleep ∧ s.busy b = true
  notDone : ∀ x ∈ queued ++ s.working, (s.disk.info x).status ≠ 0
  chain : ∀ q b sector write i j k asleep, s.pc q = .wait b sector write i j k asleep →
    Chain s.disk b sector write i j k ∧
    (s.busy b = true → i ∈ queued ++ (s.working ++ done)) ∧
    (s.busy b = false → (s.disk.info i).status = 0)
  apart : ∀ q q' n, (s.pc q).Has n → (s.pc q').Has n → q = q'
  owned : ∀ n < NUM, s.disk.free n = false → ∃ q, (s.pc q).Has n
  bufs : ∀ q q' b, (s.pc q).buf = some b → (s.pc q').buf = some b → q = q'
  stays : ∀ q, (s.pc q).Stays s.disk.free s.busy

private theorem Pc.eq_wait_of_awake {p p' : Pc B} (h : p'.awake = p.awake) {b : B} {sector : Nat}
    {write : Bool}
    {i j k : Nat} {asleep : Bool} (hp : p = .wait b sector write i j k asleep) :
    ∃ asleep', p' = .wait b sector write i j k asleep' := by
  subst hp
  cases p' with
  | out => cases h
  | alloc b' sector' write' asleep' => cases h
  | wait b' sector' write' i' j' k' asleep' =>
    cases h
    exact ⟨_, rfl⟩

private theorem Pc.has_of_awake {p p' : Pc B} (h : p'.awake = p.awake) {n : Nat} (hn : p'.Has n) :
    p.Has n := by
  cases p <;> cases p' <;> cases h <;> exact hn

private theorem Pc.awake_wakeFree (p : Pc B) : p.wakeFree.awake = p.awake := by
  cases p <;> rfl

private theorem Pc.awake_wakeBuf [DecidableEq B] (b : B) (p : Pc B) :
    (p.wakeBuf b).awake = p.awake := by
  cases p <;> rfl

private theorem Pc.buf_of_awake {p p' : Pc B} (h : p'.awake = p.awake) : p'.buf = p.buf := by
  cases p <;> cases p' <;> cases h <;> rfl

namespace Sound

variable {s : System Q B D} {queued done : List Nat}

/-- Processes fall asleep and are woken up. -/
theorem reshape (h : Sound s queued done) {pc : Q → Pc B}
    (hshape : ∀ q, (pc q).awake = (s.pc q).awake) (hstays : ∀ q, (pc q).Stays s.disk.free s.busy) :
    Sound { s with pc } queued done where
  avail := h.avail
  used := h.used
  nodup := h.nodup
  head x hx := by
    obtain ⟨q, b, sector, write, j, k, asleep, hq, hbusy⟩ := h.head x hx
    obtain ⟨asleep', hq'⟩ := Pc.eq_wait_of_awake (hshape q) hq
    exact ⟨q, b, sector, write, j, k, asleep', hq', hbusy⟩
  notDone := h.notDone
  chain q b sector write i j k asleep hq := by
    obtain ⟨asleep', hq'⟩ := Pc.eq_wait_of_awake (hshape q).symm hq
    exact h.chain q b sector write i j k asleep' hq'
  apart q q' n hn hn' :=
    h.apart q q' n (Pc.has_of_awake (hshape q) hn) (Pc.has_of_awake (hshape q') hn')
  owned n hn hfree := (h.owned n hn hfree).imp fun q ↦ Pc.has_of_awake (hshape q).symm
  bufs q q' b hb hb' := h.bufs q q' b ((Pc.buf_of_awake (hshape q)).symm.trans hb)
    ((Pc.buf_of_awake (hshape q')).symm.trans hb')
  stays := hstays

/-- Free descriptors are written to. -/
theorem desc (h : Sound s queued done) {desc : Nat → Desc B}
    (hdesc : ∀ n, s.disk.free n = false → desc n = s.disk.desc n) :
    Sound { s with disk := { s.disk with desc } } queued done :=
  { h with
    chain := fun q b sector write i j k asleep hq ↦ by
      obtain ⟨hchain, hrest⟩ := h.chain q b sector write i j k asleep hq
      exact ⟨hchain.congr (fun n hn ↦ hdesc n (hchain.used n hn).2)
        (fun n hn ↦ (hchain.used n hn).2)
        rfl rfl, hrest⟩ }

/-- A head belongs to one process. -/
theorem head_lt (h : Sound s queued done) {x : Nat} (hx : x ∈ queued ++ (s.working ++ done)) :
    x < NUM ∧ s.disk.free x = false := by
  obtain ⟨q, b, sector, write, j, k, asleep, hq, -⟩ := h.head x hx
  exact (h.chain q b sector write x j k asleep hq).1.used x (.inl rfl)

/-- The device takes a chain. -/
theorem fetch (h : Sound s queued done) (hne : s.devIdx ≠ s.disk.availIdx) :
    ∃ queued', Sound { s with
      devIdx := (s.devIdx + 1) % 2 ^ 16
      working := s.working ++ [s.disk.availRing (s.devIdx % NUM)] } queued' done := by
  obtain ⟨queued', hqueued, havail⟩ := h.avail.pop hne
  set x := s.disk.availRing (s.devIdx % NUM)
  have hperm : (queued' ++ (s.working ++ [x] ++ done)).Perm (queued ++ (s.working ++ done)) := by
    rw [hqueued, List.append_assoc s.working, List.singleton_append, ← List.append_assoc queued',
      ← List.append_assoc (x :: queued'), List.cons_append, List.cons_append]
    exact List.perm_middle
  refine ⟨queued', { h with
    avail := havail
    nodup := hperm.nodup_iff.mpr h.nodup
    head := fun y hy ↦ h.head y (hperm.mem_iff.mp hy)
    notDone := ?_
    chain := ?_ }⟩
  · intro y hy
    refine h.notDone y ?_
    rw [hqueued]
    simp only [List.mem_append, List.mem_cons, List.not_mem_nil, or_false] at hy ⊢
    tauto
  · intro q b sector write i j k asleep hq
    obtain ⟨hchain, hbusy, hidle⟩ := h.chain q b sector write i j k asleep hq
    exact ⟨hchain, fun hb ↦ hperm.mem_iff.mpr (hbusy hb), hidle⟩

variable [DecidableEq Q]

/-- A process calls. -/
theorem call (h : Sound s queued done) {q : Q} {b : B} (hq : s.pc q = .out)
    (hb : ∀ q', (s.pc q').buf ≠ some b) (sector : Nat) (write : Bool) :
    Sound { s with pc := update s.pc q (.alloc b sector write false) } queued done := by
  have hpc : ∀ {q'}, q' ≠ q → update s.pc q (.alloc b sector write false) q' = s.pc q' :=
    fun hne ↦ update_of_ne hne _ _
  have hself : update s.pc q (.alloc b sector write false) q = .alloc b sector write false :=
    update_self ..
  refine { h with
    head := ?_
    chain := ?_
    apart := ?_
    owned := ?_
    bufs := ?_
    stays := ?_ }
  · intro x hx
    obtain ⟨q', b', sector', write', j, k, asleep, hq', hbusy⟩ := h.head x hx
    refine ⟨q', b', sector', write', j, k, asleep, (hpc ?_).trans hq', hbusy⟩
    rintro rfl
    rw [hq] at hq'
    cases hq'
  · intro q' b' sector' write' i j k asleep hq'
    by_cases hne : q' = q
    · rw [hne] at hq'
      cases hself.symm.trans hq'
    · exact h.chain q' b' sector' write' i j k asleep ((hpc hne).symm.trans hq')
  · have hold : ∀ q' n, (update s.pc q (.alloc b sector write false) q').Has n →
        (s.pc q').Has n := by
      intro q' n hn
      by_cases hne : q' = q
      · rw [hne, hself] at hn
        cases hn
      · rwa [hpc hne] at hn
    exact fun q1 q2 n h1 h2 ↦ h.apart q1 q2 n (hold q1 n h1) (hold q2 n h2)
  · intro n hn hfree
    obtain ⟨q', hhas⟩ := h.owned n hn hfree
    have hne : q' ≠ q := by
      rintro rfl
      rw [hq] at hhas
      cases hhas
    refine ⟨q', ?_⟩
    change (update s.pc q _ q').Has n
    rwa [hpc hne]
  · have hnew : ∀ q' b', (update s.pc q (.alloc b sector write false) q').buf = some b' →
        q' = q ∧ b' = b ∨ (s.pc q').buf = some b' := by
      intro q' b' hb'
      by_cases hne : q' = q
      · rw [hne, hself] at hb'
        exact .inl ⟨hne, (Option.some.inj hb').symm⟩
      · rw [hpc hne] at hb'
        exact .inr hb'
    intro q1 q2 b' h1 h2
    rcases hnew q1 b' h1 with ⟨hq1, hb1⟩ | hold1 <;> rcases hnew q2 b' h2 with ⟨hq2, hb2⟩ | hold2
    · rw [hq1, hq2]
    · exact absurd hold2 (hb1 ▸ hb q2)
    · exact absurd hold1 (hb2 ▸ hb q1)
    · exact h.bufs q1 q2 b' hold1 hold2
  · intro q'
    by_cases hne : q' = q
    · rw [hne]
      change (update s.pc q _ q).Stays _ _
      rw [hself]
      rintro ⟨⟩
    · change (update s.pc q _ q').Stays _ _
      rw [hpc hne]
      exact h.stays q'

/-- A process sleeps or wakes up. -/
theorem goto (h : Sound s queued done) {q : Q} {p : Pc B} (hp : p.awake = (s.pc q).awake)
    (hstays : p.Stays s.disk.free s.busy) {pc : Q → Pc B}
    (hpc : ∀ q, pc q = s.pc q ∨ pc q = (s.pc q).wakeFree) :
    Sound { s with pc := update pc q p } queued done := by
  refine h.reshape (fun q' ↦ ?_) fun q' ↦ ?_
  · by_cases hne : q' = q
    · rw [hne, update_self, hp]
    · rw [update_of_ne hne]
      rcases hpc q' with heq | heq <;> rw [heq]
      cases s.pc q' <;> rfl
  · by_cases hne : q' = q
    · rwa [hne, update_self]
    · rw [update_of_ne hne]
      have hold := h.stays q'
      rcases hpc q' with heq | heq <;> rw [heq]
      · exact hold
      · cases hq' : s.pc q' with
        | out => trivial
        | alloc b sector write asleep => rintro ⟨⟩
        | wait b sector write i j k asleep =>
          rw [hq'] at hold
          exact hold

variable [DecidableEq B]

omit [DecidableEq Q] [DecidableEq B] in
private theorem not_has (h : Sound s queued done) {n : Nat} (hn : s.disk.free n = true) (q : Q) :
    ¬ (s.pc q).Has n := by
  intro hhas
  cases hq : s.pc q with
  | out => rw [hq] at hhas; cases hhas
  | alloc => rw [hq] at hhas; cases hhas
  | wait b sector write i j k asleep =>
    rw [hq] at hhas
    have hused := ((h.chain q b sector write i j k asleep hq).1.used n hhas).2
    rw [hn] at hused
    cases hused

omit [DecidableEq Q] [DecidableEq B] in
/-- The chain of another process is apart from the descriptors taken, and stays. -/
private theorem chain_submit (h : Sound s queued done) {q : Q} {b : B} (hb : (s.pc q).buf = some b)
    {sector : Nat} {write : Bool} (hfree : ∀ n, n = i ∨ n = j ∨ n = k → s.disk.free n = true)
    {free : Nat → Bool} (hother : ∀ n, ¬ (n = i ∨ n = j ∨ n = k) → free n = s.disk.free n)
    {q' : Q} {b' : B} {sector' : Nat} {write' asleep' : Bool} {i' j' k' : Nat} (hne : q' ≠ q)
    (hq' : s.pc q' = .wait b' sector' write' i' j' k' asleep') :
    Chain (Disk.submit { s.disk with free } b sector write i j k) b' sector' write' i' j' k' ∧
      b' ≠ b ∧ i' ≠ i := by
  have hchain := (h.chain q' b' sector' write' i' j' k' asleep' hq').1
  have hnew : ∀ n, n = i' ∨ n = j' ∨ n = k' → ¬ (n = i ∨ n = j ∨ n = k) := by
    intro n hn hn'
    refine h.not_has (hfree n hn') q' ?_
    rw [hq']
    exact hn
  have hii : i' ≠ i := fun heq ↦ hnew i' (.inl rfl) (.inl heq)
  refine ⟨hchain.congr (fun n hn ↦ ?_) (fun n hn ↦ ?_) (update_of_ne hii _ _) ?_, ?_, hii⟩
  · have hn' := hnew n hn
    change update (update (update s.disk.desc i _) j _) k _ n = _
    rw [update_of_ne (by tauto), update_of_ne (by tauto), update_of_ne (by tauto)]
  · exact (hother n (hnew n hn)).trans (hchain.used n hn).2
  · change (update s.disk.info i _ i').b = _
    rw [update_of_ne hii]
  · rintro rfl
    exact hne (h.bufs q' q b' (by rw [hq']; rfl) hb)

/-- A process has three descriptors and tells the device of its chain. -/
theorem submit (h : Sound s queued done) {q : Q} {b : B} {sector : Nat} {write asleep : Bool}
    (hq : s.pc q = .alloc b sector write asleep) {i j k : Nat} (hapart : i ≠ j ∧ i ≠ k ∧ j ≠ k)
    (hfree : ∀ n, n = i ∨ n = j ∨ n = k → n < NUM ∧ s.disk.free n = true) {free : Nat → Bool}
    (htaken : ∀ n, n = i ∨ n = j ∨ n = k → free n = false)
    (hother : ∀ n, ¬ (n = i ∨ n = j ∨ n = k) → free n = s.disk.free n) :
    Sound { s with
      disk := Disk.submit { s.disk with free } b sector write i j k
      busy := update s.busy b true
      pc := update s.pc q (.wait b sector write i j k true) } (queued ++ [i]) done := by
  have hpc : ∀ {q'}, q' ≠ q →
      update s.pc q (.wait b sector write i j k true) q' = s.pc q' :=
    fun hne ↦ update_of_ne hne _ _
  have hself : update s.pc q (.wait b sector write i j k true) q =
      .wait b sector write i j k true := update_self ..
  have hnot : ∀ n, n = i ∨ n = j ∨ n = k → ∀ q', ¬ (s.pc q').Has n :=
    fun n hn ↦ h.not_has (hfree n hn).2
  have hi : i ∉ queued ++ (s.working ++ done) := by
    intro hmem
    have hused := (h.head_lt hmem).2
    rw [(hfree i (.inl rfl)).2] at hused
    cases hused
  have hperm : (queued ++ [i] ++ (s.working ++ done)).Perm
      (i :: (queued ++ (s.working ++ done))) := by
    rw [List.append_assoc, List.singleton_append]
    exact List.perm_middle
  have hnodup := List.nodup_cons.mpr ⟨hi, h.nodup⟩
  have hlen : queued.length < NUM := by
    have hall := length_lt_of_nodup hnodup fun y hy ↦ by
      rcases List.mem_cons.mp hy with rfl | hy
      · exact (hfree y (.inl rfl)).1
      · exact (h.head_lt hy).1
    rw [List.length_append] at hall
    omega
  have hbusy : ∀ b', s.busy b' = true → update s.busy b true b' = true := by
    intro b' hb'
    by_cases hne : b' = b
    · rw [hne, update_self]
    · rwa [update_of_ne hne]
  have hold : ∀ q' n, (update s.pc q (.wait b sector write i j k true) q').Has n →
      q' = q ∧ (n = i ∨ n = j ∨ n = k) ∨ (s.pc q').Has n := by
    intro q' n hn
    by_cases hne : q' = q
    · rw [hne, hself] at hn
      exact .inl ⟨hne, hn⟩
    · rw [hpc hne] at hn
      exact .inr hn
  refine {
    avail := h.avail.push hlen i
    used := h.used
    nodup := hperm.nodup_iff.mpr hnodup
    head := ?_
    notDone := ?_
    chain := ?_
    apart := ?_
    owned := ?_
    bufs := ?_
    stays := ?_ }
  · intro x hx
    rcases List.mem_cons.mp (hperm.mem_iff.mp hx) with rfl | hx
    · exact ⟨q, b, sector, write, j, k, true, hself, update_self ..⟩
    · obtain ⟨q', b', sector', write', j', k', asleep', hq', hb'⟩ := h.head x hx
      refine ⟨q', b', sector', write', j', k', asleep', (hpc ?_).trans hq', hbusy b' hb'⟩
      rintro rfl
      rw [hq] at hq'
      cases hq'
  · intro x hx
    change (update s.disk.info i ⟨some b, 0xff⟩ x).status ≠ 0
    by_cases hxi : x = i
    · rw [hxi, update_self]
      exact (by decide : (0xff : Nat) ≠ 0)
    · rw [update_of_ne hxi]
      apply h.notDone
      simp only [List.mem_append, List.mem_singleton] at hx ⊢
      tauto
  · intro q' b' sector' write' i' j' k' asleep' hq'
    by_cases hne : q' = q
    · rw [hne] at hq'
      cases hself.symm.trans hq'
      refine ⟨.submit _ _ _ _ hapart fun n hn ↦ ⟨(hfree n hn).1, htaken n hn⟩,
        fun _ ↦ hperm.mem_iff.mpr List.mem_cons_self, fun hb ↦ ?_⟩
      change update s.busy b true b = false at hb
      rw [update_self] at hb
      cases hb
    · have hq'' := (hpc hne).symm.trans hq'
      obtain ⟨-, hin, hidle⟩ := h.chain q' b' sector' write' i' j' k' asleep' hq''
      obtain ⟨hchain, hb', hii⟩ := h.chain_submit (by rw [hq]; rfl) (fun n hn ↦ (hfree n hn).2)
        hother hne hq''
      refine ⟨hchain, fun hb ↦ ?_, fun hb ↦ ?_⟩
      · change update s.busy b true b' = true at hb
        rw [update_of_ne hb'] at hb
        exact hperm.mem_iff.mpr (List.mem_cons_of_mem _ (hin hb))
      · change update s.busy b true b' = false at hb
        rw [update_of_ne hb'] at hb
        change (update s.disk.info i _ i').status = 0
        rw [update_of_ne hii]
        exact hidle hb
  · intro q1 q2 n h1 h2
    rcases hold q1 n h1 with ⟨hq1, hn1⟩ | hold1 <;> rcases hold q2 n h2 with ⟨hq2, hn2⟩ | hold2
    · rw [hq1, hq2]
    · exact absurd hold2 (hnot n hn1 q2)
    · exact absurd hold1 (hnot n hn2 q1)
    · exact h.apart q1 q2 n hold1 hold2
  · intro n hn hn'
    by_cases hnew : n = i ∨ n = j ∨ n = k
    · refine ⟨q, ?_⟩
      change (update s.pc q _ q).Has n
      rw [hself]
      exact hnew
    · obtain ⟨q', hhas⟩ := h.owned n hn ((hother n hnew).symm.trans hn')
      refine ⟨q', ?_⟩
      change (update s.pc q _ q').Has n
      rwa [hpc]
      rintro rfl
      rw [hq] at hhas
      cases hhas
  · have hbuf : ∀ q', (update s.pc q (.wait b sector write i j k true) q').buf =
        (s.pc q').buf := by
      intro q'
      by_cases hne : q' = q
      · rw [hne, hself, hq]
        rfl
      · rw [hpc hne]
    exact fun q1 q2 b' h1 h2 ↦ h.bufs q1 q2 b' ((hbuf q1).symm.trans h1) ((hbuf q2).symm.trans h2)
  · intro q'
    change (update s.pc q _ q').Stays free (update s.busy b true)
    by_cases hne : q' = q
    · rw [hne, hself]
      exact fun _ ↦ update_self ..
    · rw [hpc hne]
      refine (h.stays q').mono (fun n hn ↦ ?_) hbusy
      by_cases hnew : n = i ∨ n = j ∨ n = k
      · rw [htaken n hnew] at hn
        cases hn
      · rwa [hother n hnew] at hn

omit [DecidableEq B] in
/-- A process returns, and its descriptors are freed. -/
theorem release (h : Sound s queued done) {q : Q} {b : B} {sector : Nat} {write asleep : Bool}
    {i j k : Nat} (hq : s.pc q = .wait b sector write i j k asleep) (hidle : s.busy b = false)
    {desc : Nat → Desc B} (hdesc : ∀ n, ¬ (n = i ∨ n = j ∨ n = k) → desc n = s.disk.desc n)
    {free : Nat → Bool} (hfree : ∀ n, ¬ (n = i ∨ n = j ∨ n = k) → free n = s.disk.free n)
    (hfree' : ∀ n, n = i ∨ n = j ∨ n = k → free n = true) {info : Nat → Info B}
    (hinfo : ∀ n, (info n).status = (s.disk.info n).status)
    (hinfo' : ∀ n, n ≠ i → info n = s.disk.info n) :
    Sound { s with
      disk := { s.disk with desc, free, info }
      pc := update (fun q ↦ (s.pc q).wakeFree) q .out } queued done := by
  have hpc : ∀ {q'}, q' ≠ q →
      update (fun q ↦ (s.pc q).wakeFree) q .out q' = (s.pc q').wakeFree :=
    fun hne ↦ update_of_ne hne _ _
  have hself : update (fun q ↦ (s.pc q).wakeFree) q .out q = .out := update_self ..
  have hwait : ∀ {q' b' sector' write' i' j' k' asleep'},
      update (fun q ↦ (s.pc q).wakeFree) q .out q' =
        .wait b' sector' write' i' j' k' asleep' →
      q' ≠ q ∧ s.pc q' = .wait b' sector' write' i' j' k' asleep' := by
    intro q' b' sector' write' i' j' k' asleep' hq'
    have hne : q' ≠ q := by
      rintro rfl
      cases hself.symm.trans hq'
    refine ⟨hne, ?_⟩
    rw [hpc hne] at hq'
    cases hp : s.pc q' with
    | out => rw [hp] at hq'; cases hq'
    | alloc => rw [hp] at hq'; cases hq'
    | wait => rw [hp] at hq'; exact hq'
  have hold : ∀ q', (∀ n, (update (fun q ↦ (s.pc q).wakeFree) q .out q').Has n →
        (s.pc q').Has n) ∧
      ∀ b', (update (fun q ↦ (s.pc q).wakeFree) q .out q').buf = some b' →
        (s.pc q').buf = some b' := by
    intro q'
    by_cases hne : q' = q
    · rw [hne, hself]
      exact ⟨fun n hn ↦ hn.elim, fun b' hb' ↦ by cases hb'⟩
    · rw [hpc hne]
      cases s.pc q' <;> exact ⟨fun n hn ↦ hn, fun b' hb' ↦ hb'⟩
  refine { h with
    head := ?_
    notDone := fun x hx ↦ (hinfo x).trans_ne (h.notDone x hx)
    chain := ?_
    apart := fun q1 q2 n h1 h2 ↦ h.apart q1 q2 n ((hold q1).1 n h1) ((hold q2).1 n h2)
    owned := ?_
    bufs := fun q1 q2 b' h1 h2 ↦ h.bufs q1 q2 b' ((hold q1).2 b' h1) ((hold q2).2 b' h2)
    stays := ?_ }
  · intro x hx
    obtain ⟨q', b', sector', write', j', k', asleep', hq', hb'⟩ := h.head x hx
    have hne : q' ≠ q := by
      rintro rfl
      cases hq.symm.trans hq'
      rw [hidle] at hb'
      cases hb'
    refine ⟨q', b', sector', write', j', k', asleep', (hpc hne).trans ?_, hb'⟩
    rw [hq']
    rfl
  · intro q' b' sector' write' i' j' k' asleep' hq'
    obtain ⟨hne, hq''⟩ := hwait hq'
    obtain ⟨hchain, hin, hdone⟩ := h.chain q' b' sector' write' i' j' k' asleep' hq''
    have hapart : ∀ n, n = i' ∨ n = j' ∨ n = k' → ¬ (n = i ∨ n = j ∨ n = k) := by
      intro n hn hn'
      exact hne (h.apart q' q n (by rw [hq'']; exact hn) (by rw [hq]; exact hn'))
    refine ⟨hchain.congr (fun n hn ↦ hdesc n (hapart n hn))
      (fun n hn ↦ (hfree n (hapart n hn)).trans (hchain.used n hn).2) rfl ?_, hin,
      fun hb ↦ (hinfo i').trans (hdone hb)⟩
    exact congrArg Info.b (hinfo' i' fun heq ↦ hapart i' (.inl rfl) (.inl heq))
  · intro n hn hused
    change free n = false at hused
    have hnot : ¬ (n = i ∨ n = j ∨ n = k) := by
      intro hn'
      rw [hfree' n hn'] at hused
      cases hused
    obtain ⟨q', hhas⟩ := h.owned n hn ((hfree n hnot).symm.trans hused)
    have hne : q' ≠ q := by
      rintro rfl
      rw [hq] at hhas
      exact hnot hhas
    refine ⟨q', ?_⟩
    change (update (fun q ↦ (s.pc q).wakeFree) q .out q').Has n
    rw [hpc hne]
    exact Pc.has_of_awake (Pc.awake_wakeFree _).symm hhas
  · intro q'
    change (update (fun q ↦ (s.pc q).wakeFree) q .out q').Stays free s.busy
    by_cases hne : q' = q
    · rw [hne, hself]
      trivial
    · rw [hpc hne]
      have hstays := h.stays q'
      cases hq' : s.pc q' with
      | out => trivial
      | alloc => rintro ⟨⟩
      | wait => rw [hq'] at hstays; exact hstays

omit [DecidableEq Q] [DecidableEq B] in
/-- The device finishes a chain. -/
theorem finish (h : Sound s queued done) {x : Nat} (hx : x ∈ s.working) (status : Nat) :
    Sound { s with disk := s.disk.finish x x status, working := s.working.erase x } queued
      (done ++ [x]) := by
  have hmem : x ∈ queued ++ (s.working ++ done) := by
    simp only [List.mem_append]
    tauto
  have hperm : (queued ++ (s.working.erase x ++ (done ++ [x]))).Perm
      (queued ++ (s.working ++ done)) := by
    refine List.Perm.append_left queued ?_
    rw [← List.append_assoc]
    refine (List.perm_append_singleton x _).trans ?_
    rw [← List.cons_append]
    exact (List.perm_cons_erase hx).symm.append_right done
  have hnodup := hperm.nodup_iff.mpr h.nodup
  have hlen : done.length < NUM := by
    have hall := length_lt_of_nodup (x := x) (l := done) ?_ fun y hy ↦ (h.head_lt ?_).1
    · exact hall
    · have hsub := (List.nodup_append.mp (List.nodup_append.mp hnodup).2.1).2.1
      exact (List.perm_append_singleton x done).nodup_iff.mp hsub
    · rcases List.mem_cons.mp hy with rfl | hy
      · exact hmem
      · exact List.mem_append_right _ (List.mem_append_right _ hy)
  have hother : ∀ y, y ≠ x →
      update s.disk.info x { s.disk.info x with status } y = s.disk.info y :=
    fun y hne ↦ update_of_ne hne _ _
  have hb : ∀ y, (update s.disk.info x { s.disk.info x with status } y).b =
      (s.disk.info y).b := by
    intro y
    by_cases hne : y = x
    · rw [hne, update_self]
    · rw [hother y hne]
  refine { h with
    used := h.used.push hlen x
    nodup := hnodup
    head := fun y hy ↦ h.head y (hperm.mem_iff.mp hy)
    notDone := ?_
    chain := ?_ }
  · intro y hy
    have hne : y ≠ x := by
      rintro rfl
      rcases List.mem_append.mp hy with hy | hy
      · exact (List.nodup_append.mp hnodup).2.2 y hy y
          (List.mem_append_right _ (List.mem_append_right _ (List.mem_singleton.mpr rfl))) rfl
      · exact (List.nodup_append.mp (List.nodup_append.mp hnodup).2.1).2.2 y hy y
          (List.mem_append_right _ (List.mem_singleton.mpr rfl)) rfl
    change (update s.disk.info x _ y).status ≠ 0
    rw [hother y hne]
    apply h.notDone
    simp only [List.mem_append] at hy ⊢
    exact hy.imp_right List.mem_of_mem_erase
  · intro q b sector write i j k asleep hq
    obtain ⟨hchain, hin, hdone⟩ := h.chain q b sector write i j k asleep hq
    refine ⟨hchain.congr (fun _ _ ↦ rfl) (fun n hn ↦ (hchain.used n hn).2) rfl (hb i),
      fun hbusy ↦ hperm.mem_iff.mpr (hin hbusy), fun hidle ↦ ?_⟩
    have hne : i ≠ x := by
      rintro rfl
      obtain ⟨q', b', sector', write', j', k', asleep', hq', hbusy⟩ := h.head i hmem
      have heq : q' = q := h.apart q' q i (by rw [hq']; exact .inl rfl) (by rw [hq]; exact .inl rfl)
      rw [heq] at hq'
      cases hq.symm.trans hq'
      change s.busy b = false at hidle
      rw [hidle] at hbusy
      cases hbusy
    change (update s.disk.info x _ i).status = 0
    rw [hother i hne]
    exact hdone hidle

omit [DecidableEq Q] [DecidableEq B] in
/-- What the device has finished first is the chain of a process, and its buffer is known. -/
theorem finished (h : Sound s queued done) (hne : s.disk.usedIdx ≠ s.disk.usedDevIdx) :
    ∃ x done', s.disk.usedRing (s.disk.usedIdx % NUM) = x ∧ done = x :: done' ∧
      Between s.disk.usedRing ((s.disk.usedIdx + 1) % 2 ^ 16) s.disk.usedDevIdx done' ∧
      ∃ q b sector write j k asleep, s.pc q = .wait b sector write x j k asleep ∧
        s.busy b = true ∧ (s.disk.info x).b = some b := by
  obtain ⟨done', hdone, hused⟩ := h.used.pop hne
  refine ⟨_, done', rfl, hdone, hused, ?_⟩
  obtain ⟨q, b, sector, write, j, k, asleep, hq, hbusy⟩ :=
    h.head (s.disk.usedRing (s.disk.usedIdx % NUM)) (by rw [hdone]; simp)
  exact ⟨q, b, sector, write, j, k, asleep, hq, hbusy, (h.chain _ _ _ _ _ _ _ _ hq).1.info⟩

omit [DecidableEq Q] in
/-- The interrupt handler gives a buffer back. -/
theorem intr {x : Nat} {done' : List Nat} (h : Sound s queued (x :: done'))
    (hused : Between s.disk.usedRing ((s.disk.usedIdx + 1) % 2 ^ 16) s.disk.usedDevIdx done')
    {q : Q} {b : B} {sector : Nat} {write asleep : Bool} {j k : Nat}
    (hq : s.pc q = .wait b sector write x j k asleep) (hstatus : (s.disk.info x).status = 0) :
    Sound { s with
      disk := { s.disk with usedIdx := (s.disk.usedIdx + 1) % 2 ^ 16 }
      busy := update s.busy b false
      pc := fun q ↦ (s.pc q).wakeBuf b } queued done' := by
  have hperm : (x :: (queued ++ (s.working ++ done'))).Perm
    (queued ++ (s.working ++ x :: done')) := by
    rw [← List.append_assoc, ← List.append_assoc]
    exact List.perm_middle.symm
  obtain ⟨hx, hnodup⟩ := List.nodup_cons.mp (hperm.nodup_iff.mpr h.nodup)
  have howner : ∀ {q' b' sector' write' i' j' k' asleep'},
      s.pc q' = .wait b' sector' write' i' j' k' asleep' → (b' = b ↔ i' = x) := by
    intro q' b' sector' write' i' j' k' asleep' hq'
    constructor
    · rintro rfl
      have heq := h.bufs q' q b' (by rw [hq']; rfl) (by rw [hq]; rfl)
      rw [heq] at hq'
      cases hq.symm.trans hq'
      rfl
    · rintro rfl
      have heq := h.apart q' q i' (by rw [hq']; exact .inl rfl) (by rw [hq]; exact .inl rfl)
      rw [heq] at hq'
      cases hq.symm.trans hq'
      rfl
  have hshape : ∀ q, ((s.pc q).wakeBuf b).awake = (s.pc q).awake := fun q ↦ Pc.awake_wakeBuf b _
  refine {
    avail := h.avail
    used := hused
    nodup := hnodup
    head := ?_
    notDone := h.notDone
    chain := ?_
    apart := fun q1 q2 n h1 h2 ↦ h.apart q1 q2 n (Pc.has_of_awake (hshape q1) h1)
      (Pc.has_of_awake (hshape q2) h2)
    owned := fun n hn hfree ↦ (h.owned n hn hfree).imp fun q ↦ Pc.has_of_awake (hshape q).symm
    bufs := fun q1 q2 b' h1 h2 ↦ h.bufs q1 q2 b' ((Pc.buf_of_awake (hshape q1)).symm.trans h1)
      ((Pc.buf_of_awake (hshape q2)).symm.trans h2)
    stays := ?_ }
  · intro y hy
    obtain ⟨q', b', sector', write', j', k', asleep', hq', hbusy⟩ :=
      h.head y (hperm.mem_iff.mp (List.mem_cons_of_mem _ hy))
    obtain ⟨asleep'', hq''⟩ := Pc.eq_wait_of_awake (hshape q') hq'
    refine ⟨q', b', sector', write', j', k', asleep'', hq'', ?_⟩
    have hb' : b' ≠ b := by
      intro heq
      rw [(howner hq').mp heq] at hy
      exact hx hy
    exact (update_of_ne hb' _ _).trans hbusy
  · intro q' b' sector' write' i' j' k' asleep' hq'
    obtain ⟨asleep'', hq''⟩ := Pc.eq_wait_of_awake (hshape q').symm hq'
    obtain ⟨hchain, hin, hidle⟩ := h.chain q' b' sector' write' i' j' k' asleep'' hq''
    refine ⟨hchain.congr (fun _ _ ↦ rfl) (fun n hn ↦ (hchain.used n hn).2) rfl rfl,
      fun hbusy ↦ ?_, fun hbusy ↦ ?_⟩
    · have hb' : b' ≠ b := by
        rintro rfl
        change update s.busy b' false b' = true at hbusy
        rw [update_self] at hbusy
        cases hbusy
      change update s.busy b false b' = true at hbusy
      rw [update_of_ne hb'] at hbusy
      exact (List.mem_cons.mp (hperm.mem_iff.mpr (hin hbusy))).resolve_left
        (mt (howner hq'').mpr hb')
    · by_cases hb' : b' = b
      · rw [(howner hq'').mp hb']
        exact hstatus
      · change update s.busy b false b' = false at hbusy
        rw [update_of_ne hb'] at hbusy
        exact hidle hbusy
  · intro q'
    have hstays := h.stays q'
    change ((s.pc q').wakeBuf b).Stays s.disk.free (update s.busy b false)
    cases hq' : s.pc q' with
    | out => trivial
    | alloc => rw [hq'] at hstays; exact hstays
    | wait b' sector' write' i' j' k' asleep' =>
      rw [hq'] at hstays
      intro hasleep
      rw [Bool.and_eq_true, decide_eq_true_eq] at hasleep
      exact (update_of_ne hasleep.2 _ _).trans (hstays hasleep.1)

end Sound

/-! ### The disk that the calls refine -/

/-- What a process asks of the disk. -/
inductive Req (B : Type) where
  | idle
  | pending (b : B) (sector : Nat) (write : Bool)
  | performed (b : B)
  deriving DecidableEq, Repr

def Req.buf : Req B → Option B
  | .idle => none
  | .pending b _ _ | .performed b => some b

/-- A disk that transfers a block at once. -/
structure Spec (Q B D : Type) where
  data : B → D
  medium : Nat → D
  req : Q → Req B

/-- What can be seen of the disk. -/
inductive Event (Q B D : Type) where
  | modify (b : B) (x : D)
  | call (q : Q) (b : B) (sector : Nat) (write : Bool)
  | ret (q : Q)

variable [DecidableEq Q] [DecidableEq B]

/-- The steps of the disk: a request is carried out at some moment between the call and the
return. -/
inductive Spec.Step : Spec Q B D → Option (Event Q B D) → Spec Q B D → Prop where
  | modify {s : Spec Q B D} {b : B} (x : D) (h : ∀ q, (s.req q).buf ≠ some b) :
      Step s (some (.modify b x)) { s with data := update s.data b x }
  | call {s : Spec Q B D} {q : Q} {b : B} (sector : Nat) (write : Bool) (hq : s.req q = .idle)
      (h : ∀ q', (s.req q').buf ≠ some b) :
      Step s (some (.call q b sector write))
        { s with req := update s.req q (.pending b sector write) }
  | read {s : Spec Q B D} {q : Q} {b : B} {sector : Nat} (h : s.req q = .pending b sector false) :
      Step s none { s with
        data := update s.data b (s.medium sector)
        req := update s.req q (.performed b) }
  | write {s : Spec Q B D} {q : Q} {b : B} {sector : Nat} (h : s.req q = .pending b sector true) :
      Step s none { s with
        medium := update s.medium sector (s.data b)
        req := update s.req q (.performed b) }
  | ret {s : Spec Q B D} {q : Q} {b : B} (h : s.req q = .performed b) :
      Step s (some (.ret q)) { s with req := update s.req q .idle }

/-- What a process has asked for and whether it was done. -/
def Pc.req (info : Nat → Info B) : Pc B → Req B
  | .out => .idle
  | .alloc b sector write _ => .pending b sector write
  | .wait b sector write i _ _ _ =>
    if (info i).status = 0 then .performed b else .pending b sector write

/-- The disk that a state stands for. -/
def System.abs (s : System Q B D) : Spec Q B D where
  data := s.data
  medium := s.medium
  req q := (s.pc q).req s.disk.info

/-- What can be seen of a step. -/
def System.event (s : System Q B D) : Act Q B D → Option (Event Q B D)
  | .modify b x => some (.modify b x)
  | .call q b sector write => some (.call q b sector write)
  | .run q =>
    match s.pc q with
    | .wait b _ _ _ _ _ _ => if s.busy b then none else some (.ret q)
    | _ => none
  | _ => none

/-- The steps with what can be seen of them. -/
def Step (s : System Q B D) (e : Option (Event Q B D)) (t : System Q B D) : Prop :=
  ∃ a, s.Enabled a ∧ s.step a = some t ∧ s.event a = e

omit [DecidableEq B] in
private theorem Pc.buf_req (info : Nat → Info B) (p : Pc B) : (p.req info).buf = p.buf := by
  cases p with
  | wait b sector write i j k asleep =>
    rw [Pc.req]
    split_ifs <;> rfl
  | _ => rfl

omit [DecidableEq B] in
private theorem Pc.req_of_awake {p p' : Pc B} (h : p'.awake = p.awake) (info : Nat → Info B) :
    p'.req info = p.req info := by
  cases p <;> cases p' <;> cases h <;> rfl

omit [DecidableEq B] in
/-- Only the status at the head of the chain matters. -/
theorem Pc.req_congr {p : Pc B} {info info' : Nat → Info B}
    (h : ∀ b sector write i j k asleep, p = .wait b sector write i j k asleep →
      (info' i).status = (info i).status) : p.req info' = p.req info := by
  cases p with
  | wait b sector write i j k asleep => rw [Pc.req, Pc.req, h _ _ _ _ _ _ _ rfl]
  | _ => rfl

/-- Something that is sound, and what a step to it shows. -/
def Simulates (s : System Q B D) (e : Option (Event Q B D)) (t : System Q B D) : Prop :=
  (∃ queued done, Sound t queued done) ∧
    (e = none ∧ t.abs = s.abs ∨ Spec.Step s.abs e t.abs)

namespace Sound

variable {s t : System Q B D} {queued done : List Nat}

omit [DecidableEq B] in
/-- The processes but one, and what they asked for, are as before. -/
theorem abs_goto {disk : Disk B} {busy : B → Bool} {pc : Q → Pc B} {q : Q} {p : Pc B}
    (hpc : ∀ q', q' ≠ q → (pc q').req disk.info = (s.pc q').req s.disk.info) :
    System.abs { s with disk, busy, pc := update pc q p } =
      { s.abs with req := update s.abs.req q (p.req disk.info) } := by
  unfold System.abs
  congr 1
  funext q'
  dsimp only
  by_cases hne : q' = q
  · rw [hne, update_self, update_self]
  · rw [update_of_ne hne, update_of_ne hne]
    exact hpc q' hne

omit [DecidableEq B] in
private theorem abs_goto_self {disk : Disk B} {busy : B → Bool} {pc : Q → Pc B} {q : Q} {p : Pc B}
    (hpc : ∀ q', q' ≠ q → (pc q').req disk.info = (s.pc q').req s.disk.info)
    (hp : p.req disk.info = (s.pc q).req s.disk.info) :
    System.abs { s with disk, busy, pc := update pc q p } = s.abs := by
  rw [abs_goto hpc, hp]
  exact congrArg (Spec.mk s.data s.medium) (update_eq_self q s.abs.req)

/-- A turn of a process between two calls of `sleep`. -/
theorem run (h : Sound s queued done) {q : Q} (hout : s.pc q ≠ .out) :
    ∃ t, s.run q = some t ∧ Simulates s (s.event (.run q)) t := by
  unfold System.run
  cases hq : s.pc q with
  | out => exact absurd hq hout
  | alloc b sector write asleep =>
    have hevent : s.event (.run q) = none := by
      rw [System.event, hq]
    rw [hevent]
    dsimp only
    obtain ⟨x, hx, ⟨i, j, k, hsome, hapart, hfree, hdisk⟩ | ⟨hnone, hscarce, desc, hdisk, hdesc⟩⟩ :=
      s.disk.alloc3Desc_cases
    · obtain ⟨htaken, hother⟩ := update_three s.disk.free i j k false
      rw [hx, Option.map_some, hsome, hdisk]
      refine ⟨_, rfl, ⟨_, _, h.submit hq hapart hfree htaken hother⟩, .inl ⟨rfl, ?_⟩⟩
      refine abs_goto_self (fun q' hne ↦ Pc.req_congr ?_) ?_
      · intro b' sector' write' i' j' k' asleep' hq'
        have hused := ((h.chain _ _ _ _ _ _ _ _ hq').1.used i' (.inl rfl)).2
        have hne' : i' ≠ i := by
          rintro rfl
          rw [(hfree i' (.inl rfl)).2] at hused
          cases hused
        exact congrArg Info.status (update_of_ne hne' _ _)
      · rw [hq]
        refine if_neg ?_
        change (update s.disk.info i ⟨some b, 0xff⟩ i).status ≠ 0
        rw [update_self]
        exact (by decide : (0xff : Nat) ≠ 0)
    · rw [hx, Option.map_some, hnone, hdisk]
      have hpc : ∀ q', (if x.2.2 = true then fun q ↦ (s.pc q).wakeFree else s.pc) q' = s.pc q' ∨
          (if x.2.2 = true then fun q ↦ (s.pc q).wakeFree else s.pc) q' = (s.pc q').wakeFree := by
        intro q'
        split_ifs
        · exact .inr rfl
        · exact .inl rfl
      have hsound := (h.desc hdesc).goto (q := q) (p := .alloc b sector write true)
        (by rw [hq]; rfl) (fun _ ↦ hscarce) hpc
      refine ⟨_, rfl, ⟨_, _, hsound⟩, .inl ⟨rfl, abs_goto_self (fun q' _ ↦ ?_) (by rw [hq]; rfl)⟩⟩
      rcases hpc q' with heq | heq <;> rw [heq]
      exact Pc.req_of_awake (Pc.awake_wakeFree _) _
  | wait b sector write i j k asleep =>
    dsimp only
    obtain ⟨hchain, -, hdone⟩ := h.chain _ _ _ _ _ _ _ _ hq
    cases hbusy : s.busy b with
    | true =>
      have hevent : s.event (.run q) = none := by
        rw [System.event, hq]
        exact if_pos hbusy
      rw [hevent, if_pos rfl]
      have hsound : Sound { s with pc := update s.pc q (.wait b sector write i j k true) }
          queued done :=
        h.goto (p := .wait b sector write i j k true) (by rw [hq]; rfl) (fun _ ↦ hbusy) fun _ ↦
          .inl rfl
      exact ⟨_, rfl, ⟨_, _, hsound⟩, .inl ⟨rfl, abs_goto_self (fun _ _ ↦ rfl) (by rw [hq]; rfl)⟩⟩
    | false =>
      have hevent : s.event (.run q) = some (.ret q) := by
        rw [System.event, hq]
        exact if_neg (by rw [hbusy]; exact Bool.false_ne_true)
      rw [hevent, if_neg Bool.false_ne_true]
      obtain ⟨desc, hfree, hdesc⟩ := hchain.freeChain
        (update s.disk.info i { s.disk.info i with b := none })
      obtain ⟨hfreed, hother⟩ := update_three s.disk.free i j k true
      rw [hfree, Option.map_some]
      have hinfo : ∀ n, (update s.disk.info i { s.disk.info i with b := none } n).status =
          (s.disk.info n).status := by
        intro n
        by_cases hn : n = i
        · rw [hn, update_self]
        · rw [update_of_ne hn]
      have hsound := h.release hq hbusy (fun n hn ↦ hdesc n (by tauto) (by tauto) (by tauto)) hother
        hfreed hinfo fun n hn ↦ update_of_ne hn _ _
      refine ⟨_, rfl, ⟨_, _, hsound⟩, .inr ?_⟩
      rw [abs_goto fun q' _ ↦ (Pc.req_of_awake (Pc.awake_wakeFree _) _).trans
        (Pc.req_congr fun _ _ _ i' _ _ _ _ ↦ hinfo i')]
      refine Spec.Step.ret (b := b) ?_
      change (s.pc q).req s.disk.info = _
      rw [hq, Pc.req, if_pos (hdone hbusy)]

/-- The device finishes a chain that it has taken. -/
theorem perform (h : Sound s queued done) {x : Nat} (hx : x ∈ s.working) (ok : Bool) :
    ∃ t, s.perform x ok = some t ∧ Simulates s (s.event (.perform x ok)) t := by
  obtain ⟨q, b, sector, write, j, k, asleep, hq, -⟩ :=
    h.head x (List.mem_append_right _ (List.mem_append_left _ hx))
  have hchain := (h.chain _ _ _ _ _ _ _ _ hq).1
  have hstatus := h.notDone x (List.mem_append_right _ hx)
  have hpending : s.abs.req q = .pending b sector write := by
    change (s.pc q).req s.disk.info = _
    rw [hq]
    exact if_neg hstatus
  have hreq : ∀ status, status ≠ 0 → ∀ q',
      (s.pc q').req (s.disk.finish x x status).info = s.abs.req q' := by
    intro status hne q'
    cases hq' : s.pc q' with
    | wait b' sector' write' i' j' k' asleep' =>
      change _ = (s.pc q').req s.disk.info
      rw [hq', Pc.req, Pc.req]
      by_cases hi : i' = x
      · rw [hi, if_neg hstatus, if_neg]
        change (update s.disk.info x _ x).status ≠ 0
        rw [update_self]
        exact hne
      · change (if (update s.disk.info x _ i').status = 0 then _ else _) = _
        rw [update_of_ne hi]
    | _ =>
      change _ = (s.pc q').req s.disk.info
      rw [hq']
      rfl
  have hreq0 : (fun q' ↦ (s.pc q').req (s.disk.finish x x 0).info) =
      update s.abs.req q (.performed b) := by
    funext q'
    by_cases hne : q' = q
    · rw [hne, update_self, hq]
      refine if_pos ?_
      change (update s.disk.info x _ x).status = 0
      rw [update_self]
    · rw [update_of_ne hne]
      refine Pc.req_congr fun b' sector' write' i' j' k' asleep' hq' ↦ ?_
      refine congrArg Info.status (update_of_ne ?_ _ _)
      rintro rfl
      exact hne (h.apart q' q i' (by rw [hq']; exact .inl rfl) (by rw [hq]; exact .inl rfl))
  unfold System.perform
  rw [hchain.request, Option.map_some]
  cases ok with
  | false =>
    refine ⟨_, rfl, ⟨_, _, h.finish hx 1⟩, .inl ⟨rfl, ?_⟩⟩
    exact congrArg (Spec.mk s.data s.medium) (funext (hreq 1 (by decide)))
  | true =>
    have hsound := h.finish hx 0
    rw [if_pos rfl]
    cases write with
    | true =>
      refine ⟨_, rfl, ⟨queued, done ++ [x], { hsound with }⟩, .inr ?_⟩
      have hstep := Spec.Step.write hpending
      rw [← hreq0] at hstep
      exact hstep
    | false =>
      refine ⟨_, rfl, ⟨queued, done ++ [x], { hsound with }⟩, .inr ?_⟩
      have hstep := Spec.Step.read hpending
      rw [← hreq0] at hstep
      exact hstep

/-- Every step that can be taken is taken, unless the handler finds a transfer that failed, and is
one of the disk or cannot be seen. -/
theorem step (h : Sound s queued done) {a : Act Q B D} (hen : s.Enabled a)
    (hok : a = .intr → (s.disk.info (s.disk.usedRing (s.disk.usedIdx % NUM))).status = 0) :
    ∃ t, s.step a = some t ∧ Simulates s (s.event a) t := by
  cases a with
  | modify b x =>
    refine ⟨_, rfl, ⟨queued, done, { h with }⟩, .inr (.modify x fun q ↦ ?_)⟩
    exact (congrArg (· ≠ some b) (Pc.buf_req s.disk.info (s.pc q))).mpr (hen q)
  | call q b sector write =>
    refine ⟨_, rfl, ⟨_, _, h.call hen.1 hen.2 sector write⟩, .inr ?_⟩
    have habs : System.abs { s with pc := update s.pc q (.alloc b sector write false) } =
        { s.abs with req := update s.abs.req q (.pending b sector write) } :=
      abs_goto fun _ _ ↦ rfl
    have hstep := Spec.Step.call (s := s.abs) sector write
      (show (s.pc q).req s.disk.info = .idle by rw [hen.1]; rfl)
      fun q' ↦ (congrArg (· ≠ some b) (Pc.buf_req s.disk.info (s.pc q'))).mpr (hen.2 q')
    rw [System.event]
    exact habs ▸ hstep
  | run q => exact h.run hen.1
  | wake q =>
    have hpc : ∀ q', update s.pc q (s.pc q).awake q' = s.pc q' ∨
        update s.pc q (s.pc q).awake q' = (s.pc q').awake := by
      intro q'
      by_cases hne : q' = q
      · exact .inr (by rw [hne, update_self])
      · exact .inl (update_of_ne hne _ _)
    have hshape : ∀ q', (update s.pc q (s.pc q).awake q').awake = (s.pc q').awake := by
      intro q'
      rcases hpc q' with heq | heq <;> rw [heq]
      cases s.pc q' <;> rfl
    have hstays : ∀ q', (update s.pc q (s.pc q).awake q').Stays s.disk.free s.busy := by
      intro q'
      rcases hpc q' with heq | heq <;> rw [heq]
      · exact h.stays q'
      · cases s.pc q' with
        | out => trivial
        | alloc => rintro ⟨⟩
        | wait => rintro ⟨⟩
    have hsound : Sound { s with pc := update s.pc q (s.pc q).awake } queued done :=
      h.reshape hshape hstays
    refine ⟨_, rfl, ⟨_, _, hsound⟩, .inl ⟨rfl, ?_⟩⟩
    exact congrArg (Spec.mk s.data s.medium) (funext fun q' ↦ Pc.req_of_awake (hshape q') _)
  | fetch =>
    obtain ⟨queued', hsound⟩ := h.fetch hen
    exact ⟨_, rfl, ⟨_, _, hsound⟩, .inl ⟨rfl, rfl⟩⟩
  | perform x ok => exact h.perform hen ok
  | intr =>
    obtain ⟨x, done', hx, rfl, hused, q, b, sector, write, j, k, asleep, hq, -, hb⟩ :=
      h.finished hen
    have hstatus := hok rfl
    rw [hx] at hstatus
    unfold System.step System.intr
    dsimp only
    rw [hx, if_neg (not_not_intro hstatus), hb, Option.map_some]
    refine ⟨_, rfl, ⟨_, _, h.intr hused hq hstatus⟩, .inl ⟨rfl, ?_⟩⟩
    exact congrArg (Spec.mk s.data s.medium)
      (funext fun q' ↦ Pc.req_of_awake (Pc.awake_wakeBuf b _) _)

end Sound

/-! ### Runs -/

omit [DecidableEq Q] [DecidableEq B] in
private theorem init_sound (data : B → D) (medium : Nat → D) :
    Sound (System.init data medium : System Q B D) [] [] where
  avail := ⟨(by decide : 0 < 2 ^ 16), rfl, rfl⟩
  used := ⟨(by decide : 0 < 2 ^ 16), rfl, rfl⟩
  nodup := List.nodup_nil
  head x hx := absurd hx List.not_mem_nil
  notDone x hx := absurd hx List.not_mem_nil
  chain q b sector write i j k asleep hq := by cases hq
  apart q q' n hn := by cases hn
  owned n hn hfree := by
    change decide (n < NUM) = false at hfree
    exact absurd hn (of_decide_eq_false hfree)
  bufs q q' b hb := by cases hb
  stays q := trivial

private theorem Step.simulates {s t : System Q B D} {e : Option (Event Q B D)}
    (hs : ∃ queued done, Sound s queued done) (h : Step s e t) : Simulates s e t := by
  obtain ⟨queued, done, hs⟩ := hs
  obtain ⟨a, hen, hstep, rfl⟩ := h
  have hok : a = .intr → (s.disk.info (s.disk.usedRing (s.disk.usedIdx % NUM))).status = 0 := by
    rintro rfl
    change s.intr = some t at hstep
    unfold System.intr at hstep
    by_contra hne
    rw [if_pos hne] at hstep
    cases hstep
  obtain ⟨t', ht', hsim⟩ := hs.step hen hok
  rw [hstep] at ht'
  rwa [Option.some.inj ht']

/-- The system is sound after every run. -/
theorem sound_of_runs {data : B → D} {medium : Nat → D} {es : List (Option (Event Q B D))}
    {s : System Q B D} (h : Runs Step (System.init data medium) es s) :
    ∃ queued done, Sound s queued done :=
  h.invariant (fun s ↦ ∃ queued done, Sound s queued done)
    (fun _ _ _ hs hstep ↦ (hstep.simulates hs).1)
    ⟨[], [], init_sound data medium⟩

/-- Whatever processes call and however their steps, those of the device and those of the interrupt
handler are interleaved, the calls and returns are those of a disk that transfers each block at
once, at a moment between the call and its return, and the buffers and the medium hold what they
hold there. -/
theorem virtio_refines {data : B → D} {medium : Nat → D} {es : List (Option (Event Q B D))}
    {s : System Q B D} (h : Runs Step (System.init data medium) es s) :
    ∃ es', Runs Spec.Step ⟨data, medium, fun _ ↦ .idle⟩ es' s.abs ∧
      es'.reduceOption = es.reduceOption :=
  h.refines System.abs (fun s ↦ ∃ queued done, Sound s queued done)
    (fun _ _ _ hs hstep ↦ hstep.simulates hs) ⟨[], [], init_sound data medium⟩

/-- In every state of a run, each step that can be taken is taken: no descriptor is freed twice,
every chain that the device or the handler comes to is in order; only a transfer that failed makes
the handler panic. -/
theorem virtio_never_panics {data : B → D} {medium : Nat → D} {es : List (Option (Event Q B D))}
    {s : System Q B D} (h : Runs Step (System.init data medium) es s) {a : Act Q B D}
    (hen : s.Enabled a)
    (hok : a = .intr → (s.disk.info (s.disk.usedRing (s.disk.usedIdx % NUM))).status = 0) :
    ∃ t, s.step a = some t := by
  obtain ⟨queued, done, hs⟩ := sound_of_runs h
  obtain ⟨t, ht, -⟩ := hs.step hen hok
  exact ⟨t, ht⟩

omit [DecidableEq Q] [DecidableEq B] in
/-- A buffer that is in the hands of the device can be moved on. -/
theorem Sound.moves {s : System Q B D} {queued done : List Nat} (h : Sound s queued done) {x : Nat}
    (hx : x ∈ queued ++ (s.working ++ done)) :
    s.Enabled .fetch ∨ (∃ i ok, s.Enabled (.perform i ok)) ∨ s.Enabled .intr := by
  have hring : ∀ {data : Nat → Nat} {r w : Nat} {l : List Nat}, Between data r w l → x ∈ l →
      l.length < 2 ^ 16 → r ≠ w := by
    rintro data r w l hl hmem hlen rfl
    have hpos := List.length_pos_of_mem hmem
    have hlt := hl.lt
    have hw := hl.write
    omega
  have hlen : (queued ++ (s.working ++ done)).length ≤ (List.range NUM).length :=
    (List.Nodup.subperm h.nodup fun y hy ↦ List.mem_range.mpr (h.head_lt hy).1).length_le
  rw [List.length_append, List.length_append, List.length_range, NUM] at hlen
  rcases List.mem_append.mp hx with hx | hx
  · exact .inl (hring h.avail hx (by omega))
  · rcases List.mem_append.mp hx with hx | hx
    · exact .inr (.inl ⟨x, true, hx⟩)
    · exact .inr (.inr (hring h.used hx (by omega)))

/-- As long as a process is in a call, a process in a call, the device or the interrupt handler can
take a step: nobody sleeps through the wakeup that it waits for. -/
theorem virtio_never_stuck {data : B → D} {medium : Nat → D} {es : List (Option (Event Q B D))}
    {s : System Q B D} (h : Runs Step (System.init data medium) es s) {q : Q}
    (hq : s.pc q ≠ .out) :
    (∃ q', s.Enabled (.run q')) ∨ s.Enabled .fetch ∨ (∃ i ok, s.Enabled (.perform i ok)) ∨
      s.Enabled .intr := by
  obtain ⟨queued, done, hs⟩ := sound_of_runs h
  have hwait : ∀ q' b sector write i j k asleep, s.pc q' = .wait b sector write i j k asleep →
      (∃ q', s.Enabled (.run q')) ∨ s.Enabled .fetch ∨ (∃ i ok, s.Enabled (.perform i ok)) ∨
        s.Enabled .intr := by
    intro q' b sector write i j k asleep hq'
    cases asleep with
    | false => exact .inl ⟨q', by rw [hq']; rintro ⟨⟩, by rw [hq']; rfl⟩
    | true =>
      have hbusy := hs.stays q'
      rw [hq'] at hbusy
      exact .inr (hs.moves ((hs.chain _ _ _ _ _ _ _ _ hq').2.1 (hbusy rfl)))
  cases hpc : s.pc q with
  | out => exact absurd hpc hq
  | wait b sector write i j k asleep => exact hwait q b sector write i j k asleep hpc
  | alloc b sector write asleep =>
    cases asleep with
    | false => exact .inl ⟨q, hq, by rw [hpc]; rfl⟩
    | true =>
      -- the descriptors that are missing belong to processes that wait for the device
      have hscarce := hs.stays q
      rw [hpc] at hscarce
      obtain ⟨n, hn, hused⟩ : ∃ n < NUM, s.disk.free n = false := by
        by_contra hall
        push Not at hall
        refine hscarce rfl 0 1 2 (by decide) (by decide) (by decide) (by decide) (by decide)
          (by decide) ⟨?_, ?_, ?_⟩
        · simpa using hall 0 (by decide)
        · simpa using hall 1 (by decide)
        · simpa using hall 2 (by decide)
      obtain ⟨q', hhas⟩ := hs.owned n hn hused
      cases hq' : s.pc q' with
      | out => rw [hq'] at hhas; cases hhas
      | alloc => rw [hq'] at hhas; cases hhas
      | wait b' sector' write' i j k asleep' => exact hwait q' _ _ _ _ _ _ _ hq'

section

instance (s : System Bool Bool Nat) : (a : Act Bool Bool Nat) → Decidable (s.Enabled a)
  | .modify b _ => inferInstanceAs (Decidable (∀ q, (s.pc q).buf ≠ some b))
  | .call q b _ _ => inferInstanceAs (Decidable (s.pc q = .out ∧ ∀ q', (s.pc q').buf ≠ some b))
  | .run q => inferInstanceAs (Decidable (s.pc q ≠ .out ∧ (s.pc q).asleep = false))
  | .wake _ => inferInstanceAs (Decidable True)
  | .fetch => inferInstanceAs (Decidable (s.devIdx ≠ s.disk.availIdx))
  | .perform i _ => inferInstanceAs (Decidable (i ∈ s.working))
  | .intr => inferInstanceAs (Decidable (s.disk.usedIdx ≠ s.disk.usedDevIdx))

/-- The state after steps of two processes with two buffers. -/
def System.after (s : System Bool Bool Nat) :
    List (Act Bool Bool Nat) → Option (System Bool Bool Nat)
  | [] => some s
  | a :: as => if s.Enabled a then (s.step a).bind fun t ↦ t.after as else none

/-- Steps that compute are a run. -/
theorem System.runs_of_after (s : System Bool Bool Nat) (as : List (Act Bool Bool Nat))
    (good : System Bool Bool Nat → Bool) (h : (s.after as).any good) :
    ∃ es t, Runs Step s es t ∧ good t := by
  induction as generalizing s with
  | nil => exact ⟨[], s, .nil s, h⟩
  | cons a as ih =>
    rw [System.after] at h
    split_ifs at h with hen
    · cases ht : s.step a with
      | none =>
        rw [ht] at h
        cases h
      | some t =>
        rw [ht] at h
        obtain ⟨es, u, hrun, hgood⟩ := ih t h
        exact ⟨_, u, .cons ⟨a, hen, ht, rfl⟩ hrun, hgood⟩
    · cases h

/-- A process writes its buffer to the disk. -/
def writes : List (Act Bool Bool Nat) :=
  [.call true true 3 true, .run true, .fetch, .perform 0 true, .intr, .run true]

/-- One process writes a block. -/
theorem virtio_refines_small : ∃ es, ∃ s : System Bool Bool Nat,
    Runs Step (System.init (fun _ ↦ 7) fun _ ↦ 0) es s ∧ s.medium 3 = 7 ∧ s.pc true = .out ∧
    ∃ es', Runs Spec.Step ⟨fun _ ↦ 7, fun _ ↦ 0, fun _ ↦ .idle⟩ es' s.abs ∧
      es'.reduceOption = es.reduceOption := by
  obtain ⟨es, s, hrun, hgood⟩ := System.runs_of_after
    (System.init (fun _ ↦ 7) fun _ ↦ 0) writes (fun s ↦ s.medium 3 = 7 ∧ s.pc true = .out)
      (by decide)
  obtain ⟨hmedium, hout⟩ := of_decide_eq_true hgood
  exact ⟨es, s, hrun, hmedium, hout, virtio_refines hrun⟩

/-- A process that can take its next step. -/
theorem virtio_never_panics_small : ∃ es, ∃ s t : System Bool Bool Nat,
    Runs Step (System.init (fun _ ↦ 7) fun _ ↦ 0) es s ∧ s.step (.run true) = some t := by
  obtain ⟨es, s, hrun, hgood⟩ := System.runs_of_after
    (System.init (fun _ ↦ 7) fun _ ↦ 0) (writes.take 5) (fun s ↦ s.Enabled (.run true)) (by decide)
  obtain ⟨t, ht⟩ := virtio_never_panics hrun (of_decide_eq_true hgood) (by rintro ⟨⟩)
  exact ⟨es, s, t, hrun, ht⟩

/-- A process sleeps until its request is done. -/
theorem virtio_never_stuck_small : ∃ es, ∃ s : System Bool Bool Nat,
    Runs Step (System.init (fun _ ↦ 7) fun _ ↦ 0) es s ∧ (s.pc true).asleep = true ∧
    ((∃ q', s.Enabled (.run q')) ∨ s.Enabled .fetch ∨ (∃ i ok, s.Enabled (.perform i ok)) ∨
      s.Enabled .intr) := by
  obtain ⟨es, s, hrun, hgood⟩ := System.runs_of_after
    (System.init (fun _ ↦ 7) fun _ ↦ 0) (writes.take 2)
    (fun s ↦ s.pc true ≠ .out ∧ (s.pc true).asleep = true) (by decide)
  obtain ⟨hout, hasleep⟩ := of_decide_eq_true hgood
  exact ⟨es, s, hrun, hasleep, virtio_never_stuck hrun hout⟩

end

end Xv6K210.Virtio
