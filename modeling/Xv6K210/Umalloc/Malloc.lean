import Xv6K210.Umalloc.Blocks

/-!
# Allocation of a block

`malloc` goes round the ring until it finds a block that is large enough, and asks for
more memory when it has come round.
-/

namespace Xv6K210.Umalloc

open Base Function

variable {s : Space} {h : Heap} {F L : Nat → Prop}

/-! ### A block is taken -/

/-- What `malloc` does to the blocks when it returns the one with the header `a`. -/
structure Taken (s : Space) (L : Nat → Prop) (nunits : Nat) (h h' : Heap) (F' : Nat → Prop)
    (a : Nat) : Prop where
  blocks : Blocks s h' F' fun x ↦ L x ∨ x = a
  fresh : ¬ L a
  freep : h'.freep = s.base ∨ F' h'.freep
  size : h'.size a = nunits
  old : ∀ x, L x → h'.size x = h.size x

/-- A free block is taken as a whole. -/
theorem Blocks.unlink (hb : Blocks s h F L) {prevp : Nat} (hprev : prevp = s.base ∨ F prevp)
    (hF : F (h.next prevp)) :
    Taken s L (h.size (h.next prevp)) h ((h.setPtr prevp (h.next (h.next prevp))).setFreep prevp)
      (fun z ↦ F z ∧ z ≠ h.next prevp) (h.next prevp) := by
  have hblock : ∀ a, (F a ∧ a ≠ h.next prevp) ∨ L a ∨ a = h.next prevp → F a ∨ L a := by
    rintro a (⟨ha, -⟩ | ha | rfl)
    · exact .inl ha
    · exact .inr ha
    · exact .inl hF
  have hsize : ((h.setPtr prevp (h.next (h.next prevp))).setFreep prevp).size = h.size := by
    rw [Heap.size_setFreep, Heap.size_setPtr]
  refine ⟨⟨?_, ?_, fun a ha ↦ ?_, fun a b ha hb' hab ↦ ?_, ?_, hb.start_le, hb.brk_le⟩,
    hb.excl _ hF, ?_, ?_, fun x _ ↦ congrFun hsize x⟩
  · rw [Heap.next_setFreep, Heap.next_setPtr]
    exact hb.ring.remove hprev hF
  · rw [hsize, hb.base_size]
  · rw [hsize]
    exact hb.room a (hblock a ha)
  · rw [hsize]
    exact hb.apart a b (hblock a ha) (hblock b hb') hab
  · rintro a ⟨ha, hne⟩ (hL | heq)
    · exact hb.excl a ha hL
    · exact hne heq
  · refine hprev.imp_right fun hFp ↦ ⟨hFp, ?_⟩
    rcases hb.ring.succ prevp (.inr hFp) with ⟨-, hlt, -⟩ | ⟨hbase, -⟩
    · exact Nat.ne_of_lt hlt
    · have := hb.base_lt (.inl hF)
      change prevp ≠ h.next prevp
      omega
  · exact congrFun hsize _

/-- The end of a free block is taken. -/
theorem Blocks.split (hb : Blocks s h F L) {p n freep : Nat} (hF : F p)
    (hfreep : freep = s.base ∨ F freep) (hn : 1 ≤ n) (hlt : n < h.size p) :
    Taken s L n h (((h.setSize p (h.size p - n)).setSize (p + 16 * (h.size p - n)) n).setFreep
      freep)
      F (p + 16 * (h.size p - n)) := by
  have hroom := hb.room p (.inl hF)
  have hbase := hb.base_lt (.inl hF)
  -- no block begins inside of the one that is split
  have hinside : ∀ a, F a ∨ L a → ¬ (p < a ∧ a < p + 16 * h.size p) := by
    intro a ha hin
    have := hb.apart p a (.inl hF) ha hin.1
    omega
  have hne : ∀ a, F a ∨ L a → a ≠ p + 16 * (h.size p - n) := by
    rintro a ha rfl
    exact hinside _ ha (by omega)
  have hsize : ∀ a, (((h.setSize p (h.size p - n)).setSize (p + 16 * (h.size p - n)) n).setFreep
      freep).size a = if a = p + 16 * (h.size p - n) then n
        else if a = p then h.size p - n else h.size a := by
    intro a
    rw [Heap.size_setFreep, Heap.size_setSize, Heap.size_setSize, update_apply,
      update_apply]
  refine ⟨⟨?_, ?_, fun a ha ↦ ?_, fun a b ha hb' hab ↦ ?_, ?_, hb.start_le, hb.brk_le⟩,
    fun hL ↦ hne _ (.inr hL) rfl, hfreep, ?_, fun x hx ↦ ?_⟩
  · rw [Heap.next_setFreep, Heap.next_setSize, Heap.next_setSize]
    exact hb.ring
  · rw [hsize, if_neg (by omega), if_neg (by omega), hb.base_size]
  · rw [hsize]
    change _ ∧ _ ∧ _ ≤ h.brk
    by_cases haq : a = p + 16 * (h.size p - n)
    · rw [if_pos haq]
      omega
    · have hblock : F a ∨ L a := ha.imp_right fun h ↦ h.resolve_right haq
      have hrooma := hb.room a hblock
      rw [if_neg haq]
      split
      next heq =>
        subst heq
        omega
      next => exact hrooma
  · rw [hsize]
    have hblock : ∀ c, F c ∨ L c ∨ c = p + 16 * (h.size p - n) → c ≠ p + 16 * (h.size p - n) →
        F c ∨ L c := fun c hc hcq ↦ hc.imp_right fun h ↦ h.resolve_right hcq
    by_cases haq : a = p + 16 * (h.size p - n)
    · have hblockb := hblock b hb' (by omega)
      have := hb.apart p b (.inl hF) hblockb (by omega)
      rw [if_pos haq]
      omega
    · have hblocka := hblock a ha haq
      rw [if_neg haq]
      by_cases hbq : b = p + 16 * (h.size p - n)
      · split
        next => omega
        next hap =>
          have hnin := hinside a hblocka
          have := hb.apart a p hblocka (.inl hF) (by omega)
          omega
      · have hle := hb.apart a b hblocka (hblock b hb' hbq) hab
        split
        next heq =>
          subst heq
          omega
        next => exact hle
  · rintro a ha (hL | heq)
    · exact hb.excl a ha hL
    · exact hne a (.inl ha) heq
  · rw [hsize, if_pos rfl]
  · have hxp : x ≠ p := by
      rintro rfl
      exact hb.excl x hF hx
    rw [hsize, if_neg (hne x (.inr hx)), if_neg hxp]

private theorem take_taken (hb : Blocks s h F L) {prevp n : Nat} (hprev : prevp = s.base ∨ F prevp)
    (hn : 1 ≤ n) (hle : n ≤ h.size (h.next prevp)) {q : Nat} {h' : Heap}
    (htake : take prevp (h.next prevp) n h = (q, h')) :
    ∃ a F', q = a + 16 ∧ Taken s L n h h' F' a := by
  have hF : F (h.next prevp) := by
    refine (hb.ring.next_node hprev).resolve_left fun hbase ↦ ?_
    rw [hbase, hb.base_size] at hle
    omega
  rw [take] at htake
  split at htake
  next heq =>
    cases htake
    have htaken := hb.unlink hprev hF
    rw [heq] at htaken
    exact ⟨_, _, rfl, htaken⟩
  next hne =>
    cases htake
    refine ⟨_, F, rfl, ?_⟩
    rw [Heap.size_setSize, update_self]
    exact hb.split hF hprev hn (by omega)

/-! ### More memory -/

/-- The break is moved, and the new memory is a block. -/
theorem Blocks.grow (hb : Blocks s h F L) {nu : Nat} (hnu : 1 ≤ nu)
    (hend : h.brk + 16 * nu ≤ maxuva) :
    ¬ L h.brk ∧ (∀ a, L a → a ≠ h.brk) ∧
      Blocks s (({ h with brk := h.brk + 16 * nu } : Heap).setSize h.brk nu) F
        fun x ↦ L x ∨ x = h.brk := by
  have hlt : ∀ a, F a ∨ L a → a + 16 * h.size a ≤ h.brk ∧ a ≠ h.brk := by
    intro a ha
    have := hb.room a ha
    omega
  have hstart := hb.start_le
  have hbelow := s.base_below
  have hsize : ∀ a, (({ h with brk := h.brk + 16 * nu } : Heap).setSize h.brk nu).size a =
      if a = h.brk then nu else h.size a := by
    intro a
    rw [Heap.size_setSize, update_apply]
    rfl
  refine ⟨fun hL ↦ (hlt _ (.inr hL)).2 rfl, fun a ha ↦ (hlt a (.inr ha)).2,
    ?_, ?_, fun a ha ↦ ?_, fun a b ha hb' hab ↦ ?_, ?_, ?_, hend⟩
  · rw [Heap.next_setSize]
    exact hb.ring
  · rw [hsize, if_neg (by omega), hb.base_size]
  · rw [hsize]
    change _ ∧ _ ∧ _ ≤ h.brk + 16 * nu
    by_cases hab : a = h.brk
    · rw [if_pos hab]
      omega
    · have := hb.room a (ha.imp_right fun h ↦ h.resolve_right hab)
      rw [if_neg hab]
      omega
  · rw [hsize]
    have hblock : ∀ c, F c ∨ L c ∨ c = h.brk → c ≠ h.brk → F c ∨ L c :=
      fun c hc hcb ↦ hc.imp_right fun h ↦ h.resolve_right hcb
    by_cases hab' : a = h.brk
    · -- nothing lies behind the new block
      have := hlt b (hblock b hb' (by omega))
      omega
    · rw [if_neg hab']
      by_cases hbb : b = h.brk
      · rw [hbb]
        exact (hlt a (hblock a ha hab')).1
      · exact hb.apart a b (hblock a ha hab') (hblock b hb' hbb) hab
  · rintro a ha (hL | heq)
    · exact hb.excl a ha hL
    · exact (hlt a (.inl ha)).2 heq
  · change s.start ≤ h.brk + 16 * nu
    omega

/-- The size fits into the argument of `sbrk`, or the kernel refuses the size that is left of it. -/
def Fits (nunits limit : Nat) (h : Heap) : Prop :=
  16 * nunits < 2 ^ 31 ∨ (sbrk limit (sbrkArg nunits) h).1 = none

private theorem sbrkArg_eq {nu : Nat} (h : 16 * nu < 2 ^ 31) : sbrkArg nu = (16 * nu : Nat) := by
  have hnat : (BitVec.ofNat 32 (nu * 16)).toNat = 16 * nu := by
    rw [BitVec.toNat_ofNat, Nat.mod_eq_of_lt (by omega), Nat.mul_comm]
  rw [sbrkArg, BitVec.toInt_eq_toNat_of_lt (by omega), hnat]

/-- A positive change of the break. -/
theorem sbrk_grows (limit n : Nat) (h : Heap) :
    (sbrk limit (n : Int) h = (none, h)) ∨
      (h.brk + n ≤ limit ∧ sbrk limit (n : Int) h = (some h.brk, { h with brk := h.brk + n })) := by
  rw [sbrk, if_pos (Int.natCast_nonneg n), Int.toNat_natCast]
  split
  next => exact .inl rfl
  next hin =>
    refine .inr ⟨?_, rfl⟩
    omega

/-- A call that is refused changes nothing, and whether it is depends on the break. -/
theorem sbrk_refused {h h' : Heap} (hbrk : h'.brk = h.brk) {limit : Nat} {n : Int}
    (hnone : (sbrk limit n h).1 = none) : sbrk limit n h' = (none, h') := by
  rw [sbrk] at hnone ⊢
  rw [hbrk]
  split at hnone
  next hpos =>
    rw [if_pos hpos]
    split at hnone
    next hout => exact if_pos hout
    next => cases hnone
  next hneg =>
    rw [if_neg hneg]
    dsimp only at hnone ⊢
    split at hnone
    next hout => exact if_pos hout
    next => cases hnone

/-- What `morecore` does when it gets memory. -/
structure Grown (s : Space) (L : Nat → Prop) (nunits : Nat) (h h' : Heap) (F' : Nat → Prop) :
    Prop where
  blocks : Blocks s h' F' L
  freep : h'.freep = s.base ∨ F' h'.freep
  old : ∀ x, L x → h'.size x = h.size x
  found : ∃ t, F' t ∧ nunits ≤ h'.size t

private theorem morecore_grown (hb : Blocks s h F L) (hfreep : h.freep = s.base ∨ F h.freep)
    {limit nunits : Nat} (hn : 1 ≤ nunits) (hlimit : limit ≤ mmapTop)
    (hfits : Fits nunits limit h) :
    (∃ rounds res, morecore rounds limit nunits h = some res) ∧
      ∀ rounds p h', morecore rounds limit nunits h = some (p, h') →
        (p = 0 ∧ h' = h) ∨
          (16 * nunits < 2 ^ 31 ∧ p = h'.freep ∧ ∃ F', Grown s L nunits h h' F') := by
  unfold morecore
  by_cases hsmall : 16 * nunits < 2 ^ 31
  · have hnu : 1 ≤ (if nunits < 4096 then 4096 else nunits) ∧
        nunits ≤ (if nunits < 4096 then 4096 else nunits) ∧
        16 * (if nunits < 4096 then 4096 else nunits) < 2 ^ 31 := by
      split
      · omega
      · omega
    generalize (if nunits < 4096 then 4096 else nunits) = nu at hnu ⊢
    obtain ⟨hpos, hge, hlt⟩ := hnu
    dsimp only
    rw [sbrkArg_eq hlt]
    obtain hsbrk | ⟨hend, hsbrk⟩ := sbrk_grows limit (16 * nu) h
    · rw [hsbrk]
      refine ⟨⟨0, _, rfl⟩, fun rounds p h' hmore ↦ .inl ?_⟩
      cases hmore
      exact ⟨rfl, rfl⟩
    · rw [hsbrk]
      obtain ⟨hfresh, hold, hgrow⟩ := hb.grow hpos
        (Nat.le_trans (Nat.le_trans hend hlimit) (by decide))
      obtain ⟨⟨rounds, h1, hfree⟩, hall⟩ := free_freed hgrow hfreep (.inr rfl)
      refine ⟨⟨rounds, _, congrArg (Option.map _) hfree⟩, fun rounds p h' hmore ↦ .inr ⟨hsmall, ?_⟩⟩
      obtain ⟨h2, hfree2, heq⟩ := Option.map_eq_some_iff.mp hmore
      cases heq
      obtain ⟨F', hfreed⟩ := hall rounds _ hfree2
      refine ⟨rfl, F', ?_, hfreed.freep, fun x hx ↦ ?_, ?_⟩
      · refine hfreed.blocks.of_iff fun a ↦ ⟨fun ha ↦ ⟨.inl ha, hold a ha⟩, ?_⟩
        rintro ⟨ha | ha, hne⟩
        · exact ha
        · exact absurd ha hne
      · rw [hfreed.size x (.inl hx) (hold x hx), Heap.size_setSize,
          update_of_ne (hold x hx)]
        rfl
      · obtain ⟨t, ht, hle⟩ := hfreed.found
        rw [Heap.size_setSize, update_self] at hle
        exact ⟨t, ht, Nat.le_trans hge hle⟩
  · have hrefused := hfits.resolve_left hsmall
    have hnu : (if nunits < 4096 then 4096 else nunits) = nunits := if_neg (by omega)
    dsimp only
    rw [hnu, sbrk_refused rfl hrefused]
    refine ⟨⟨0, _, rfl⟩, fun rounds p h' hmore ↦ .inl ?_⟩
    cases hmore
    exact ⟨rfl, rfl⟩

/-! ### `malloc` -/

/-- What `malloc` returns: null and the same blocks in use, or a new block. -/
def Returns (s : Space) (L : Nat → Prop) (nunits : Nat) (h : Heap) (q : Nat) (h' : Heap) : Prop :=
  (q = 0 ∧ ∃ F', Blocks s h' F' L ∧ (h'.freep = s.base ∨ F' h'.freep) ∧
    ∀ x, L x → h'.size x = h.size x) ∨
  ∃ a F', q = a + 16 ∧ Taken s L nunits h h' F' a

/-- What is done to a heap in which the blocks in use have the same sizes. -/
theorem Returns.of_old {nunits q : Nat} {h h1 h' : Heap} (hold : ∀ x, L x → h1.size x = h.size x)
    (hret : Returns s L nunits h1 q h') : Returns s L nunits h q h' := by
  rcases hret with ⟨hq, F', hb, hfreep, hsize⟩ | ⟨a, F', hq, htaken⟩
  · exact .inl ⟨hq, F', hb, hfreep, fun x hx ↦ (hsize x hx).trans (hold x hx)⟩
  · exact .inr ⟨a, F', hq, htaken.blocks, htaken.fresh, htaken.freep, htaken.size,
      fun x hx ↦ (htaken.old x hx).trans (hold x hx)⟩

/-- The search of `malloc` ends. -/
theorem mallocLoop_returns {rounds limit nunits n : Nat} (hn : 1 ≤ nunits)
    (hlimit : limit ≤ mmapTop) {prevp : Nat} (hb : Blocks s h F L)
    (hfreep : h.freep = s.base ∨ F h.freep) (hprev : prevp = s.base ∨ F prevp)
    (hfits : Fits nunits limit h) {q : Nat} {h' : Heap}
    (hloop : mallocLoop rounds limit nunits n prevp (h.next prevp) h = some (q, h')) :
    Returns s L nunits h q h' := by
  induction n generalizing prevp F h with
  | zero => cases hloop
  | succ n ih =>
    rw [mallocLoop] at hloop
    split at hloop
    next hle =>
      obtain ⟨a, F', hq, htaken⟩ := take_taken hb hprev hn hle (Option.some.inj hloop)
      exact .inr ⟨a, F', hq, htaken⟩
    next =>
      have hnode := hb.ring.next_node hprev
      split at hloop
      next =>
        obtain ⟨-, hall⟩ := morecore_grown hb hfreep hn hlimit hfits
        split at hloop
        next => cases hloop
        next h1 hmore =>
          cases hloop
          rcases hall _ _ _ hmore with ⟨-, rfl⟩ | ⟨-, hzero, F', hgrown⟩
          · exact .inl ⟨rfl, F, hb, hfreep, fun _ _ ↦ rfl⟩
          · exact .inl ⟨rfl, F', hgrown.blocks, hgrown.freep, hgrown.old⟩
        next p h1 hne hmore =>
          rcases hall _ _ _ hmore with ⟨hzero, -⟩ | ⟨hsmall, rfl, F', hgrown⟩
          · exact absurd hzero hne
          · exact (ih hgrown.blocks hgrown.freep hgrown.freep (.inl hsmall) hloop).of_old hgrown.old
      next => exact ih hb hfreep hnode hfits hloop

/-- The loop gets to a block that is large enough before it comes to `freep` again. -/
theorem mallocLoop_finds (rounds limit : Nat) {nunits : Nat} (hb : Blocks s h F L)
    (hfreep : h.freep = s.base ∨ F h.freep) {t : Nat} (ht : F t) (hsize : nunits ≤ h.size t)
    (prevp : Nat) {p : Nat} (hp : p = s.base ∨ F p)
    (hahead : Ring.dist h.brk h.freep t ≤ Ring.dist h.brk h.freep p) :
    ∃ n res, mallocLoop rounds limit nunits n prevp p h = some res := by
  obtain ⟨hbound, hbase⟩ := hb.le_brk
  have hle : ∀ z, z = s.base ∨ F z → z ≤ h.brk := by
    rintro z (rfl | hz)
    · exact hbase
    · exact hbound z hz
  induction hdist : Ring.dist h.brk h.freep p using Nat.strongRecOn generalizing prevp p with
  | ind d ih =>
    by_cases hlarge : h.size p ≥ nunits
    · exact ⟨1, _, by rw [mallocLoop, if_pos hlarge]⟩
    have hpt : p ≠ t := by
      rintro rfl
      exact hlarge hsize
    have hpf : p ≠ h.freep := by
      intro heq
      have hzero : Ring.dist h.brk h.freep t = 0 := by
        have hzero : Ring.dist h.brk h.freep p = 0 := Ring.dist_eq_zero.mpr heq
        omega
      exact hpt (heq.trans (Ring.dist_eq_zero.mp hzero).symm)
    have hlt : Ring.dist h.brk h.freep t < Ring.dist h.brk h.freep p :=
      Nat.lt_of_le_of_ne hahead fun heq ↦
        hpt (Ring.dist_inj (hle p hp) (hbound t ht) heq.symm)
    obtain ⟨n, res, hloop⟩ := ih _ (hdist ▸ hb.ring.dist_next_lt hbound hbase hfreep hp hpf)
      p (hb.ring.next_node hp) (hb.ring.dist_next_ge hbound hfreep hp (.inr ht) hlt) rfl
    exact ⟨n + 1, res, by rw [mallocLoop, if_neg hlarge, if_neg hpf, hloop]⟩

/-- The loop ends. -/
theorem mallocLoop_ends {limit nunits : Nat} (hn : 1 ≤ nunits) (hlimit : limit ≤ mmapTop)
    (hb : Blocks s h F L) (hfreep : h.freep = s.base ∨ F h.freep) (hfits : Fits nunits limit h)
    (prevp : Nat) {p : Nat} (hp : p = s.base ∨ F p) :
    ∃ rounds n res, mallocLoop rounds limit nunits n prevp p h = some res := by
  obtain ⟨hbound, hbase⟩ := hb.le_brk
  induction hdist : Ring.dist h.brk h.freep p using Nat.strongRecOn generalizing prevp p with
  | ind d ih =>
    by_cases hlarge : h.size p ≥ nunits
    · exact ⟨0, 1, _, by rw [mallocLoop, if_pos hlarge]⟩
    by_cases hpf : p = h.freep
    · obtain ⟨⟨rounds, ⟨p', h1⟩, hmore⟩, hall⟩ := morecore_grown hb hfreep hn hlimit hfits
      rcases hall _ _ _ hmore with ⟨rfl, rfl⟩ | ⟨-, rfl, F', hgrown⟩
      · exact ⟨rounds, 1, _, by rw [mallocLoop, if_neg hlarge, if_pos hpf, hmore]; rfl⟩
      · obtain ⟨t, ht, hsize⟩ := hgrown.found
        have hbound' := hgrown.blocks.le_brk.1
        have hring := hgrown.blocks.ring
        obtain ⟨n, res, hloop⟩ := mallocLoop_finds rounds limit hgrown.blocks hgrown.freep
          ht hsize h1.freep (hring.next_node hgrown.freep)
          (hring.dist_le_first hbound' hgrown.freep (.inr ht))
        have hne : h1.freep ≠ 0 := by
          have := hring.base_le hgrown.freep
          have := s.base_pos
          omega
        refine ⟨rounds, n + 1, res, ?_⟩
        rw [mallocLoop, if_neg hlarge, if_pos hpf, hmore]
        split
        next heq => cases heq
        next heq => exact absurd (Prod.mk.inj (Option.some.inj heq)).1 hne
        next heq =>
          obtain ⟨rfl, rfl⟩ := Prod.mk.inj (Option.some.inj heq)
          exact hloop
    · obtain ⟨rounds, n, res, hloop⟩ := ih _
        (hdist ▸ hb.ring.dist_next_lt hbound hbase hfreep hp hpf) p (hb.ring.next_node hp) rfl
      exact ⟨rounds, n + 1, res, by rw [mallocLoop, if_neg hlarge, if_neg hpf, hloop]⟩

end Xv6K210.Umalloc
