import Mathlib.Data.List.Nodup
import Mathlib.Logic.Function.Iterate
import Xv6K210.Umalloc.Malloc

/-!
# Runs of a program with its heap

As long as the size that `morecore` asks for fits into the argument of `sbrk`, or the
kernel refuses, the blocks that `malloc` returns are large enough, lie below the break and overlap
neither each other nor the free list. A larger size is cut off to 32 bits, and a small or negative
change of the break is taken for the whole of it.
-/

namespace Xv6K210.Umalloc

open Base

variable {s : Space} {F : Nat → Prop}

/-! ### The invariant of a program -/

/-- The headers of the blocks that are live. -/
def Used (live : List Block) (a : Nat) : Prop := a + 16 ∈ live.map Block.ptr

/-- The heap of a program that has allocated before. -/
structure Inv (s : Space) (st : State) (F : Nat → Prop) : Prop where
  blocks : Blocks s st.heap F (Used st.live)
  freep : st.heap.freep = s.base ∨ F st.heap.freep
  sized : ∀ b ∈ st.live, 16 ≤ b.ptr ∧ b.bytes ≤ 16 * (st.heap.size (b.ptr - 16) - 1)
  nodup : (st.live.map Block.ptr).Nodup

/-- The heap of any program. -/
def Sound (s : Space) (st : State) : Prop :=
  (st.heap.freep = 0 ∧ st.live = [] ∧ st.heap.brk = s.start) ∨ ∃ F, Inv s st F

/-- The blocks of a program are large enough, lie in memory below the break, and are disjoint from
each other and from the headers of the free list. -/
structure Safe (s : Space) (st : State) : Prop where
  size : ∀ b ∈ st.live, b.bytes ≤ 16 * (st.heap.size (b.ptr - 16) - 1)
  room : ∀ b ∈ st.live, s.start + 16 ≤ b.ptr ∧ b.ptr + b.bytes ≤ st.heap.brk
  apart : st.live.Pairwise fun b c ↦
    b.ptr + b.bytes + 16 ≤ c.ptr ∨ c.ptr + c.bytes + 16 ≤ b.ptr
  headers : st.heap.freep ≠ 0 → ∀ n, ∀ b ∈ st.live,
    st.heap.next^[n] st.heap.freep + 32 ≤ b.ptr ∨
      b.ptr + b.bytes ≤ st.heap.next^[n] st.heap.freep

variable {st : State}

/-- The block of a live pointer. -/
theorem Inv.used (h : Inv s st F) {b : Block} (hb : b ∈ st.live) :
    Used st.live (b.ptr - 16) ∧ b.ptr - 16 + 16 = b.ptr := by
  have hptr : b.ptr - 16 + 16 = b.ptr := Nat.sub_add_cancel (h.sized b hb).1
  refine ⟨?_, hptr⟩
  rw [Used, hptr]
  exact List.mem_map_of_mem hb

/-- The bytes of a live pointer lie in its block. -/
theorem Inv.bytes (h : Inv s st F) {b : Block} (hb : b ∈ st.live) :
    b.ptr + b.bytes ≤ b.ptr - 16 + 16 * st.heap.size (b.ptr - 16) := by
  obtain ⟨hused, hptr⟩ := h.used hb
  have hsized := h.sized b hb
  have hroom := h.blocks.room _ (.inr hused)
  omega

private theorem Inv.safe (h : Inv s st F) : Safe s st := by
  constructor
  · exact fun b hb ↦ (h.sized b hb).2
  · intro b hb
    obtain ⟨hused, hptr⟩ := h.used hb
    have hroom := h.blocks.room _ (.inr hused)
    have hbytes := h.bytes hb
    omega
  · refine (List.pairwise_map.mp h.nodup).imp_of_mem fun {b c} hb hc hne ↦ ?_
    obtain ⟨husedb, hptrb⟩ := h.used hb
    obtain ⟨husedc, hptrc⟩ := h.used hc
    have hbytesb := h.bytes hb
    have hbytesc := h.bytes hc
    rcases Nat.lt_or_gt_of_ne (show b.ptr - 16 ≠ c.ptr - 16 by omega) with hlt | hlt
    · have := h.blocks.apart _ _ (.inr husedb) (.inr husedc) hlt
      omega
    · have := h.blocks.apart _ _ (.inr husedc) (.inr husedb) hlt
      omega
  · intro _ n b hb
    obtain ⟨hused, hptr⟩ := h.used hb
    have hbytes := h.bytes hb
    have hroom := h.blocks.room _ (.inr hused)
    have hnode : ∀ n x, x = s.base ∨ F x →
        st.heap.next^[n] x = s.base ∨ F (st.heap.next^[n] x) := by
      intro n
      induction n with
      | zero => exact fun x hx ↦ hx
      | succ n ih => exact fun x hx ↦ ih _ (h.blocks.ring.next_node hx)
    rcases hnode n _ h.freep with hbase | hF
    · have := s.base_below
      omega
    · have hroomF := h.blocks.room _ (.inl hF)
      have hne : st.heap.next^[n] st.heap.freep ≠ b.ptr - 16 := by
        intro heq
        exact h.blocks.excl _ hF (heq ▸ hused)
      rcases Nat.lt_or_gt_of_ne hne with hlt | hlt
      · have := h.blocks.apart _ _ (.inl hF) (.inr hused) hlt
        omega
      · have := h.blocks.apart _ _ (.inr hused) (.inl hF) hlt
        omega

private theorem Sound.safe (h : Sound s st) : Safe s st := by
  rcases h with ⟨hzero, hnil, hbrk⟩ | ⟨F, hinv⟩
  · constructor
    · rw [hnil]
      exact fun b hb ↦ absurd hb List.not_mem_nil
    · rw [hnil]
      exact fun b hb ↦ absurd hb List.not_mem_nil
    · rw [hnil]
      exact .nil
    · exact fun hne ↦ absurd hzero hne
  · exact hinv.safe

/-- `base` is set up before the first allocation. -/
def ready (base : Nat) (h : Heap) : Heap :=
  if h.freep = 0 then ((h.setPtr base base).setFreep base).setSize base 0 else h

private theorem brk_ready (base : Nat) (h : Heap) : (ready base h).brk = h.brk := by
  rw [ready]
  split
  · rfl
  · rfl

/-- A sound heap is ready. -/
theorem Sound.ready (h : Sound s st) : ∃ F, Inv s ⟨ready s.base st.heap, st.live⟩ F := by
  rcases h with ⟨hzero, hnil, hbrk⟩ | ⟨F, hinv⟩
  · refine ⟨fun _ ↦ False, ⟨⟨fun a ha ↦ ha.elim, ?_⟩, ?_, ?_, ?_, fun a ha ↦ ha.elim, ?_, ?_⟩,
      ?_, ?_, ?_⟩
    all_goals dsimp only
    · rw [Umalloc.ready, if_pos hzero]
      rintro x (rfl | hx)
      · refine .inr ⟨?_, fun z hz ↦ hz.elim⟩
        rw [Heap.next_setSize, Heap.next_setFreep, Heap.next_setPtr, Function.update_self]
      · exact hx.elim
    · rw [Umalloc.ready, if_pos hzero, Heap.size_setSize, Function.update_self]
    · rw [hnil]
      rintro a (ha | ha)
      · exact ha.elim
      · exact absurd ha List.not_mem_nil
    · rw [hnil]
      rintro a b (ha | ha)
      · exact ha.elim
      · exact absurd ha List.not_mem_nil
    · exact Nat.le_of_eq (hbrk.symm.trans (brk_ready _ _).symm)
    · rw [brk_ready, hbrk]
      exact s.start_le
    · rw [Umalloc.ready, if_pos hzero]
      exact .inl rfl
    · rw [hnil]
      exact fun b hb ↦ absurd hb List.not_mem_nil
    · rw [hnil]
      exact List.nodup_nil
  · have hne : st.heap.freep ≠ 0 := by
      have := hinv.blocks.ring.base_le hinv.freep
      have := s.base_pos
      omega
    rw [Umalloc.ready, if_neg hne]
    exact ⟨F, hinv⟩

private theorem nunits_eq (nbytes : BitVec 32) :
    1 ≤ nunits nbytes ∧ nbytes.toNat ≤ 16 * (nunits nbytes - 1) := by
  have := nbytes.isLt
  rw [nunits, Nat.mod_eq_of_lt (by omega)]
  omega

/-! ### Steps -/

/-- What fits, fits when the list is ready. -/
theorem Fits.ready {n limit : Nat} {h : Heap} (hfits : Fits n limit h) (base : Nat) :
    Fits n limit (ready base h) :=
  hfits.imp_right fun hnone ↦ congrArg Prod.fst (sbrk_refused (brk_ready base h) hnone)

/-- `malloc` returns, and its block is added to those that are live. -/
theorem Inv.malloc (h : Inv s ⟨ready s.base st.heap, st.live⟩ F) {limit : Nat}
    (hlimit : limit ≤ mmapTop) {nbytes : BitVec 32} (hfits : Fits (nunits nbytes) limit st.heap) :
    (∃ rounds n res, malloc s.base rounds n limit nbytes st.heap = some res) ∧
      ∀ rounds n q h', malloc s.base rounds n limit nbytes st.heap = some (q, h') →
        ∃ F', Inv s ⟨h', if q = 0 then st.live else ⟨q, nbytes.toNat⟩ :: st.live⟩ F' := by
  obtain ⟨hpos, hbytes⟩ := nunits_eq nbytes
  have hfits' := hfits.ready s.base
  refine ⟨mallocLoop_ends hpos hlimit h.blocks h.freep hfits' _
    (h.blocks.ring.next_node h.freep), fun rounds n q h' hmalloc ↦ ?_⟩
  rcases mallocLoop_returns hpos hlimit h.blocks h.freep h.freep hfits' hmalloc with
    ⟨rfl, F', hb, hfreep, hold⟩ | ⟨a, F', rfl, htaken⟩
  · refine ⟨F', hb, hfreep, fun b hb' ↦ ?_, h.nodup⟩
    rw [hold _ (h.used hb').1]
    exact h.sized b hb'
  · rw [if_neg (Nat.succ_ne_zero _)]
    refine ⟨F', ?_, htaken.freep, ?_, ?_⟩
    · refine htaken.blocks.of_iff fun x ↦ ?_
      change x + 16 ∈ (a + 16) :: st.live.map Block.ptr ↔ x + 16 ∈ st.live.map Block.ptr ∨ x = a
      rw [List.mem_cons, Nat.add_right_cancel_iff]
      exact or_comm
    · intro b hb'
      rcases List.mem_cons.mp hb' with rfl | hb'
      · refine ⟨Nat.le_add_left _ _, ?_⟩
        change nbytes.toNat ≤ 16 * (h'.size (a + 16 - 16) - 1)
        rw [Nat.add_sub_cancel, htaken.size]
        exact hbytes
      · change _ ∧ b.bytes ≤ 16 * (h'.size (b.ptr - 16) - 1)
        rw [htaken.old _ (h.used hb').1]
        exact h.sized b hb'
    · exact List.nodup_cons.mpr ⟨htaken.fresh, h.nodup⟩

private theorem used_erase (h : (st.live.map Block.ptr).Nodup) {b : Block} (hb : b ∈ st.live)
    (hptr : 16 ≤ b.ptr) (x : Nat) :
    Used (st.live.erase b) x ↔ Used st.live x ∧ x ≠ b.ptr - 16 := by
  have hnodup : st.live.Nodup := List.Nodup.of_map _ h
  constructor
  · intro hx
    obtain ⟨c, hc, hcx⟩ := List.mem_map.mp hx
    obtain ⟨hne, hc⟩ := hnodup.mem_erase_iff.mp hc
    refine ⟨List.mem_map.mpr ⟨c, hc, hcx⟩, ?_⟩
    rintro rfl
    exact hne (List.inj_on_of_nodup_map h hc hb (by omega))
  · rintro ⟨hx, hne⟩
    obtain ⟨c, hc, hcx⟩ := List.mem_map.mp hx
    refine List.mem_map.mpr ⟨c, hnodup.mem_erase_iff.mpr ⟨?_, hc⟩, hcx⟩
    rintro rfl
    exact hne (by omega)

/-- `free` returns, and its block is no longer live. -/
theorem Inv.free (h : Inv s st F) {b : Block} (hb : b ∈ st.live) :
    (∃ rounds h', free rounds b.ptr st.heap = some h') ∧
      ∀ rounds h', free rounds b.ptr st.heap = some h' →
        ∃ F', Inv s ⟨h', st.live.erase b⟩ F' := by
  obtain ⟨hused, hptr⟩ := h.used hb
  obtain ⟨hends, hall⟩ := free_freed h.blocks h.freep hused
  rw [hptr] at hends hall
  refine ⟨hends, fun rounds h' hfree ↦ ?_⟩
  obtain ⟨F', hfreed⟩ := hall rounds h' hfree
  have hiff := used_erase h.nodup hb (h.sized b hb).1
  refine ⟨F', hfreed.blocks.of_iff hiff, hfreed.freep, fun c hc ↦ ?_,
    h.nodup.sublist (List.erase_sublist.map _)⟩
  have hc' : c ∈ st.live := List.mem_of_mem_erase hc
  have hne : c.ptr - 16 ≠ b.ptr - 16 := by
    have hmem : c.ptr - 16 + 16 ∈ (st.live.erase b).map Block.ptr := by
      rw [(h.used hc').2]
      exact List.mem_map_of_mem hc
    exact ((hiff _).mp hmem).2
  change _ ∧ c.bytes ≤ 16 * (h'.size (c.ptr - 16) - 1)
  rw [hfreed.size _ (h.used hc').1 hne]
  exact h.sized c hc'

/-- No byte of a live block lies in a header that is in use. -/
theorem Inv.write (h : Inv s st F) {hdr : Nat → Header}
    (hsame : ∀ a, (∀ b ∈ st.live, a + 16 ≤ b.ptr ∨ b.ptr + b.bytes ≤ a) →
      hdr a = st.heap.hdr a) : Inv s ⟨{ st.heap with hdr }, st.live⟩ F := by
  have hhdr : ∀ a, a = s.base ∨ F a ∨ Used st.live a → hdr a = st.heap.hdr a := by
    intro a ha
    refine hsame a fun b hb ↦ ?_
    obtain ⟨hused, hptr⟩ := h.used hb
    have hbytes := h.bytes hb
    have hroom := h.blocks.room _ (.inr hused)
    have hbelow := s.base_below
    rcases ha with rfl | ha
    · omega
    · have hrooma := h.blocks.room a ha
      rcases Nat.lt_trichotomy a (b.ptr - 16) with hlt | heq | hlt
      · have := h.blocks.apart a _ ha (.inr hused) hlt
        omega
      · omega
      · have := h.blocks.apart _ a (.inr hused) ha hlt
        omega
  refine ⟨h.blocks.congr hhdr rfl, h.freep, fun b hb ↦ ?_, h.nodup⟩
  have hsize : (⟨hdr, st.heap.freep, st.heap.brk⟩ : Heap).size (b.ptr - 16) =
      st.heap.size (b.ptr - 16) :=
    congrArg Header.size (hhdr _ (.inr (.inr (h.used hb).1)))
  change _ ∧ b.bytes ≤ 16 * ((⟨hdr, st.heap.freep, st.heap.brk⟩ : Heap).size (b.ptr - 16) - 1)
  rw [hsize]
  exact h.sized b hb

/-- Every step keeps the heap sound. -/
theorem Sound.step (h : Sound s st) {st' : State}
    (hstep : Step s (fun nbytes limit h ↦ Fits (nunits nbytes) limit h) st st') : Sound s st' := by
  cases hstep with
  | malloc hlimit hfits hmalloc =>
    obtain ⟨F, hinv⟩ := h.ready
    exact .inr ((hinv.malloc hlimit hfits).2 _ _ _ _ hmalloc)
  | free hb hfree =>
    rcases h with ⟨-, hnil, -⟩ | ⟨F, hinv⟩
    · rw [hnil] at hb
      exact absurd hb List.not_mem_nil
    · exact .inr ((hinv.free hb).2 _ _ hfree)
  | write hsame =>
    rcases h with ⟨hzero, hnil, hbrk⟩ | ⟨F, hinv⟩
    · exact .inl ⟨hzero, hnil, hbrk⟩
    · exact .inr ⟨F, hinv.write hsame⟩

/-- Every reachable state is sound. -/
theorem reachable_sound
    (h : Reachable s (fun nbytes limit h ↦ Fits (nunits nbytes) limit h) st) : Sound s st := by
  induction h with
  | init hdr => exact .inl ⟨rfl, rfl, rfl⟩
  | step _ hstep ih => exact ih.step hstep

/-- In a run in which every size fits into the argument of `sbrk`, or is refused, the blocks are
safe in every state, and every call returns. -/
theorem malloc_safe
    (h : Reachable s (fun nbytes limit h ↦ Fits (nunits nbytes) limit h) st) :
    Safe s st ∧
      (∀ nbytes limit, limit ≤ mmapTop → Fits (nunits nbytes) limit st.heap →
        ∃ rounds n res, malloc s.base rounds n limit nbytes st.heap = some res) ∧
      ∀ b ∈ st.live, ∃ rounds h', free rounds b.ptr st.heap = some h' := by
  have hsound := reachable_sound h
  refine ⟨hsound.safe, fun nbytes limit hlimit hfits ↦ ?_, fun b hb ↦ ?_⟩
  · obtain ⟨F, hinv⟩ := hsound.ready
    exact (hinv.malloc hlimit hfits).1
  · rcases hsound with ⟨-, hnil, -⟩ | ⟨F, hinv⟩
    · rw [hnil] at hb
      exact absurd hb List.not_mem_nil
    · exact (hinv.free hb).1

/-- A program of two pages, whose memory is zero. -/
def small : Space := ⟨0x1000, 0x2000, by decide, by decide, by decide⟩

/-- Before the first call. -/
def empty : State := ⟨⟨fun _ ↦ ⟨0, 0⟩, 0, small.start⟩, []⟩

/-- Three blocks are taken from the end of the first piece of memory, and the second one is given
back. -/
theorem malloc_safe_small : ∃ st, st.live = [⟨0x11f40, 8⟩, ⟨0x11fe0, 24⟩] ∧ Safe small st := by
  have hres : (malloc small.base 3 3 mmapTop 24 empty.heap).any (fun x ↦ x.1 = 0x11fe0 ∧
      (malloc small.base 3 3 mmapTop 100 x.2).any fun y ↦ y.1 = 0x11f60 ∧
        (malloc small.base 3 3 mmapTop 8 y.2).any fun z ↦ z.1 = 0x11f40 ∧
          (free 3 0x11f60 z.2).isSome) = true := by decide +kernel
  obtain ⟨⟨p, h1⟩, hfirst, hres⟩ := (Option.any_eq_true _ _).mp hres
  obtain ⟨rfl, hres⟩ := of_decide_eq_true hres
  obtain ⟨⟨q, h2⟩, hsecond, hres⟩ := (Option.any_eq_true _ _).mp hres
  obtain ⟨rfl, hres⟩ := of_decide_eq_true hres
  obtain ⟨⟨r, h3⟩, hthird, hres⟩ := (Option.any_eq_true _ _).mp hres
  obtain ⟨rfl, hres⟩ := of_decide_eq_true hres
  obtain ⟨h4, hfree⟩ := Option.isSome_iff_exists.mp hres
  have hstart : Reachable small (fun nbytes limit h ↦ Fits (nunits nbytes) limit h) empty := .init _
  have hthree := ((hstart.step (.malloc (Nat.le_refl _) (.inl (by decide)) hfirst)).step
    (.malloc (Nat.le_refl _) (.inl (by decide)) hsecond)).step
    (.malloc (Nat.le_refl _) (.inl (by decide)) hthird)
  have hlive : (⟨0x11f60, 100⟩ : Block) ∈ [⟨0x11f40, 8⟩, ⟨0x11f60, 100⟩, ⟨0x11fe0, 24⟩] := by decide
  have hlast := hthree.step (.free (b := ⟨0x11f60, 100⟩) hlive hfree)
  exact ⟨_, rfl, (malloc_safe hlast).1⟩

/-- A request of 2^32 - 1 bytes moves the break by 16, and its block ends far behind it. -/
theorem malloc_overruns :
    ¬ ∀ (s : Space) (st : State), Reachable s (fun _ _ _ ↦ True) st → Safe s st := by
  intro hall
  have hres : (malloc small.base 2 3 mmapTop 0xFFFFFFFF empty.heap).map
      (fun r ↦ (r.1, r.2.brk)) = some (0x2010, 0x2010) := by decide
  obtain ⟨⟨q, h⟩, hmalloc, heq⟩ := Option.map_eq_some_iff.mp hres
  obtain ⟨rfl, hbrk⟩ := Prod.mk.inj heq
  have hsafe := hall small _ (.step (.init _) (.malloc (Nat.le_refl _) trivial hmalloc))
  obtain ⟨-, hend⟩ := hsafe.room ⟨0x2010, 0xFFFFFFFF⟩ List.mem_cons_self
  change 0x2010 + 0xFFFFFFFF ≤ h.brk at hend
  rw [hbrk] at hend
  omega

end Xv6K210.Umalloc
