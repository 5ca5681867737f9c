import Xv6K210.Umalloc.Heap

/-!
# Blocks of the heap

The heap consists of free blocks, which form a ring with `base`, and of blocks that
are in use. No two of them overlap, and all of them lie between the start of the heap and the break.
-/

namespace Xv6K210.Umalloc

open Base Function

namespace Heap

variable (h : Heap) (p q n : Nat)

/-- A pointer write changes one link. -/
@[simp] theorem next_setPtr : (h.setPtr p q).next = update h.next p q := by
  funext a
  change (update h.hdr p { h.hdr p with ptr := q } a).ptr = _
  by_cases ha : a = p
  · subst ha
    rw [update_self, update_self]
  · rw [update_of_ne ha, update_of_ne ha]
    rfl

/-- A pointer write keeps the sizes. -/
@[simp] theorem size_setPtr : (h.setPtr p q).size = h.size := by
  funext a
  change (update h.hdr p { h.hdr p with ptr := q } a).size = _
  by_cases ha : a = p
  · subst ha
    rw [update_self]
    rfl
  · rw [update_of_ne ha]
    rfl

/-- A size write keeps the links. -/
@[simp] theorem next_setSize : (h.setSize p n).next = h.next := by
  funext a
  change (update h.hdr p { h.hdr p with size := n } a).ptr = _
  by_cases ha : a = p
  · subst ha
    rw [update_self]
    rfl
  · rw [update_of_ne ha]
    rfl

/-- A size write changes one size. -/
@[simp] theorem size_setSize : (h.setSize p n).size = update h.size p n := by
  funext a
  change (update h.hdr p { h.hdr p with size := n } a).size = _
  by_cases ha : a = p
  · subst ha
    rw [update_self, update_self]
  · rw [update_of_ne ha, update_of_ne ha]
    rfl

/-- `freep` is no link. -/
@[simp] theorem next_setFreep : (h.setFreep p).next = h.next := rfl

/-- `freep` is no size. -/
@[simp] theorem size_setFreep : (h.setFreep p).size = h.size := rfl

/-- A pointer write keeps the break. -/
@[simp] theorem brk_setPtr : (h.setPtr p q).brk = h.brk := rfl

/-- A size write keeps the break. -/
@[simp] theorem brk_setSize : (h.setSize p n).brk = h.brk := rfl

/-- `freep` is not the break. -/
@[simp] theorem brk_setFreep : (h.setFreep p).brk = h.brk := rfl

/-- A pointer write keeps `freep`. -/
@[simp] theorem freep_setPtr : (h.setPtr p q).freep = h.freep := rfl

/-- A size write keeps `freep`. -/
@[simp] theorem freep_setSize : (h.setSize p n).freep = h.freep := rfl

/-- `freep` just written. -/
@[simp] theorem freep_setFreep : (h.setFreep p).freep = p := rfl

/-- A heap is given by the fields of its headers. -/
theorem eq_of {h h' : Heap} (hnext : h.next = h'.next) (hsize : h.size = h'.size)
    (hfreep : h.freep = h'.freep) (hbrk : h.brk = h'.brk) : h = h' := by
  obtain ⟨hdr, freep, brk⟩ := h
  obtain ⟨hdr', freep', brk'⟩ := h'
  have heq : hdr = hdr' := by
    funext a
    have hptr := congrFun hnext a
    have hlen := congrFun hsize a
    change (hdr a).ptr = (hdr' a).ptr at hptr
    change (hdr a).size = (hdr' a).size at hlen
    exact Header.ext hptr hlen
  subst heq
  cases hfreep
  cases hbrk
  rfl

end Heap

/-! ### The invariant -/

/-- The free blocks `F` and the blocks in use `L`, by the addresses of their headers. -/
structure Blocks (s : Space) (h : Heap) (F L : Nat → Prop) : Prop where
  ring : Ring F s.base h.next
  base_size : h.size s.base = 0
  room : ∀ a, F a ∨ L a → s.start ≤ a ∧ 1 ≤ h.size a ∧ a + 16 * h.size a ≤ h.brk
  apart : ∀ a b, F a ∨ L a → F b ∨ L b → a < b → a + 16 * h.size a ≤ b
  excl : ∀ a, F a → ¬ L a
  start_le : s.start ≤ h.brk
  brk_le : h.brk ≤ maxuva

variable {s : Space} {h : Heap} {F L : Nat → Prop}

/-- Blocks lie behind the base. -/
theorem Blocks.base_lt (hb : Blocks s h F L) {a : Nat} (ha : F a ∨ L a) : s.base < a := by
  have := (hb.room a ha).1
  have := s.base_below
  omega

/-- The break lies behind the ring. -/
theorem Blocks.le_brk (hb : Blocks s h F L) : (∀ z, F z → z ≤ h.brk) ∧ s.base ≤ h.brk := by
  have hstart := hb.start_le
  have hbelow := s.base_below
  refine ⟨fun z hz ↦ ?_, by omega⟩
  have := hb.room z (.inl hz)
  omega

/-- Changes of headers that are neither those of blocks nor `base`, and of `freep`. -/
theorem Blocks.congr (hb : Blocks s h F L) {h' : Heap}
    (hhdr : ∀ a, a = s.base ∨ F a ∨ L a → h'.hdr a = h.hdr a) (hbrk : h'.brk = h.brk) :
    Blocks s h' F L := by
  have hnext : ∀ a, a = s.base ∨ F a ∨ L a → h'.next a = h.next a := fun a ha ↦
    congrArg Header.ptr (hhdr a ha)
  have hsize : ∀ a, a = s.base ∨ F a ∨ L a → h'.size a = h.size a := fun a ha ↦
    congrArg Header.size (hhdr a ha)
  constructor
  · exact hb.ring.congr fun a ha ↦ hnext a (ha.imp_right Or.inl)
  · rw [hsize _ (.inl rfl), hb.base_size]
  · intro a ha
    rw [hsize a (.inr ha), hbrk]
    exact hb.room a ha
  · intro a b ha hb' hlt
    rw [hsize a (.inr ha)]
    exact hb.apart a b ha hb' hlt
  · exact hb.excl
  · rw [hbrk]
    exact hb.start_le
  · rw [hbrk]
    exact hb.brk_le

/-- The sets of blocks may be described in another way. -/
theorem Blocks.of_iff (hb : Blocks s h F L) {L' : Nat → Prop} (hL : ∀ a, L' a ↔ L a) :
    Blocks s h F L' := by
  obtain rfl : L' = L := funext fun a ↦ propext (hL a)
  exact hb

/-! ### A block becomes free -/

/-- A block is put into the ring. -/
def insertAt (bp p : Nat) (h : Heap) : Heap := (h.setPtr bp (h.next p)).setPtr p bp

/-- A block is joined with the next one of the ring if it lies directly before it. -/
def mergeAt (x : Nat) (h : Heap) : Heap :=
  if x + 16 * h.size x = h.next x then
    (h.setSize x ((h.size x + h.size (h.next x)) % 2 ^ 32)).setPtr x (h.next (h.next x))
  else h

/-- `free` puts its block in and joins it on both sides. -/
theorem freeAt_eq {bp p : Nat} (hlt : p < bp) (hsize : 1 ≤ h.size bp) :
    freeAt bp p h = (mergeAt p (mergeAt bp (insertAt bp p h))).setFreep p := by
  have hpb : p ≠ bp := Nat.ne_of_lt hlt
  have hbp : bp ≠ p := Ne.symm hpb
  unfold freeAt mergeAt insertAt
  by_cases hright : bp + 16 * h.size bp = h.next p
  · have hyp : h.next p ≠ p := by omega
    have hyb : h.next p ≠ bp := by omega
    by_cases hleft : p + 16 * h.size p = bp
    · refine Heap.eq_of (funext fun a ↦ ?_) ?_ ?_ ?_
      · by_cases hap : a = p
        · simp [hright, hleft, hap, hpb, hbp, hyp, hyb]
        · by_cases hab : a = bp
          · simp [hright, hleft, hab, hpb, hbp, hyp, hyb]
          · simp [hright, hleft, hap, hab, hpb, hbp, hyp, hyb]
      · simp [hright, hleft, hpb, hbp]
      · simp [hright, hbp]
      · simp [hright, hleft, hpb, hbp]
    · refine Heap.eq_of (funext fun a ↦ ?_) ?_ ?_ ?_
      · by_cases hap : a = p
        · simp [hright, hleft, hap, hpb, hbp, hyp, hyb]
        · by_cases hab : a = bp
          · simp [hright, hleft, hab, hpb, hbp, hyp, hyb]
          · simp [hright, hleft, hap, hab, hpb, hbp, hyp, hyb]
      · simp [hright, hleft, hpb, hbp]
      · simp [hright, hbp]
      · simp [hright, hleft, hpb, hbp]
  · by_cases hleft : p + 16 * h.size p = bp
    · refine Heap.eq_of ?_ ?_ ?_ ?_
      · simp [hright, hleft, hbp]
      · simp [hright, hleft, hbp]
      · simp [hright, hleft, hbp]
      · simp [hright, hleft, hbp]
    · refine Heap.eq_of ?_ ?_ ?_ ?_
      · simp [hright, hleft, hbp]
      · simp [hright, hleft, hbp]
      · simp [hright, hleft, hbp]
      · simp [hright, hleft, hbp]

/-- A block in use becomes free. -/
theorem Blocks.insert (hb : Blocks s h F L) {bp p : Nat} (hbp : L bp) (hp : p = s.base ∨ F p)
    (hlt : p < bp) (hgap : ∀ z, F z → p < z → bp < z) :
    Blocks s (insertAt bp p h) (fun x ↦ F x ∨ x = bp) (fun x ↦ L x ∧ x ≠ bp) := by
  have hsize : (insertAt bp p h).size = h.size := by
    rw [insertAt, Heap.size_setPtr, Heap.size_setPtr]
  have hblock : ∀ a, ((F a ∨ a = bp) ∨ (L a ∧ a ≠ bp)) → F a ∨ L a := by
    rintro a ((ha | rfl) | ⟨ha, -⟩)
    · exact .inl ha
    · exact .inr hbp
    · exact .inr ha
  constructor
  · rw [insertAt, Heap.next_setPtr, Heap.next_setPtr]
    exact hb.ring.insert hp hlt hgap
  · rw [hsize, hb.base_size]
  · intro a ha
    rw [hsize]
    exact hb.room a (hblock a ha)
  · intro a b ha hb' hab
    rw [hsize]
    exact hb.apart a b (hblock a ha) (hblock b hb') hab
  · rintro a (ha | rfl) ⟨hL, hne⟩
    · exact hb.excl a ha hL
    · exact hne rfl
  · exact hb.start_le
  · exact hb.brk_le

/-- The two blocks of a merge, and the size that they have together. -/
theorem Blocks.adjacent (hb : Blocks s h F L) {x : Nat} (hx : F x)
    (hadj : x + 16 * h.size x = h.next x) (hne : h.next x ≠ s.base) :
    F (h.next x) ∧ x < h.next x ∧ h.next x + 16 * h.size (h.next x) ≤ h.brk ∧
      (h.size x + h.size (h.next x)) % 2 ^ 32 = h.size x + h.size (h.next x) := by
  have hF := (hb.ring.next_node (.inr hx)).resolve_left hne
  have hroomx := hb.room x (.inl hx)
  have hroomy := hb.room _ (.inl hF)
  have hbrk := hb.brk_le
  have hmax : maxuva = 2147483648 := rfl
  refine ⟨hF, by omega, hroomy.2.2, Nat.mod_eq_of_lt ?_⟩
  omega

/-- A free block is joined with the next one. -/
theorem Blocks.merge (hb : Blocks s h F L) {x : Nat} (hx : F x)
    (hadj : x + 16 * h.size x = h.next x) (hne : h.next x ≠ s.base) :
    Blocks s ((h.setSize x ((h.size x + h.size (h.next x)) % 2 ^ 32)).setPtr x (h.next (h.next x)))
      (fun z ↦ F z ∧ z ≠ h.next x) L := by
  obtain ⟨hF, hlt, hend, hmod⟩ := hb.adjacent hx hadj hne
  have hbase := hb.base_lt (.inl hx)
  rw [hmod]
  have hblock : ∀ a, ((F a ∧ a ≠ h.next x) ∨ L a) → F a ∨ L a := fun a ha ↦ ha.imp_left And.left
  have hgone : ∀ a, ((F a ∧ a ≠ h.next x) ∨ L a) → a ≠ h.next x := by
    rintro a (⟨-, ha⟩ | ha) rfl
    · exact ha rfl
    · exact hb.excl _ hF ha
  constructor
  · rw [Heap.next_setPtr, Heap.next_setSize]
    exact hb.ring.remove (.inr hx) hF
  · rw [Heap.size_setPtr, Heap.size_setSize, update_of_ne (Nat.ne_of_lt hbase), hb.base_size]
  · intro a ha
    rw [Heap.size_setPtr, Heap.size_setSize]
    by_cases hax : a = x
    · subst hax
      have hroom := hb.room a (.inl hx)
      rw [update_self]
      change _ ∧ _ ∧ _ ≤ h.brk
      omega
    · rw [update_of_ne hax]
      exact hb.room a (hblock a ha)
  · intro a b ha hb' hab
    rw [Heap.size_setPtr, Heap.size_setSize]
    by_cases hax : a = x
    · subst hax
      rw [update_self]
      -- what lies behind `a` lies behind the next block, too
      have hle := hb.apart a b (hblock a ha) (hblock b hb') hab
      have hby := hgone b hb'
      have := hb.apart _ b (.inl hF) (hblock b hb') (by omega)
      omega
    · rw [update_of_ne hax]
      exact hb.apart a b (hblock a ha) (hblock b hb') hab
  · exact fun a ha ↦ hb.excl a ha.1
  · exact hb.start_le
  · exact hb.brk_le

/-- Either way there are free blocks that are at least as large as before, and the blocks in use
keep their sizes. -/
theorem Blocks.join (hb : Blocks s h F L) {x : Nat} (hx : x = s.base ∨ F x)
    (hne : x ≠ h.next x) : ∃ F', Blocks s (mergeAt x h) F' L ∧ (∀ z ≤ x, F' z ↔ F z) ∧
      (∀ a, L a → (mergeAt x h).size a = h.size a) ∧
      ∀ t, F t → ∃ t', F' t' ∧ h.size t ≤ (mergeAt x h).size t' := by
  rw [mergeAt]
  split
  next hadj =>
    have hFx : F x := by
      refine hx.resolve_left fun hbase ↦ hne ?_
      rw [← hadj, hbase, hb.base_size]
      rfl
    have hbase := hb.base_lt (.inl hFx)
    obtain ⟨hF, hlt, -, hmod⟩ := hb.adjacent hFx hadj (by omega)
    refine ⟨_, hb.merge hFx hadj (by omega), fun z hz ↦ ⟨And.left, fun h ↦ ⟨h, by omega⟩⟩, ?_, ?_⟩
    · intro a ha
      rw [Heap.size_setPtr, Heap.size_setSize, update_of_ne]
      rintro rfl
      exact hb.excl a hFx ha
    · intro t ht
      rw [Heap.size_setPtr, Heap.size_setSize, hmod]
      by_cases hty : t = h.next x
      · refine ⟨x, ⟨hFx, by omega⟩, ?_⟩
        rw [update_self, hty]
        exact Nat.le_add_left _ _
      · refine ⟨t, ⟨ht, hty⟩, ?_⟩
        by_cases htx : t = x
        · subst htx
          rw [update_self]
          exact Nat.le_add_right _ _
        · exact Nat.le_of_eq (update_of_ne htx _ _).symm
  next => exact ⟨F, hb, fun _ _ ↦ Iff.rfl, fun _ _ ↦ rfl, fun t ht ↦ ⟨t, ht, Nat.le_refl _⟩⟩

/-! ### `free` -/

/-- An address of the ring behind which a block belongs. -/
structure Place (s : Space) (F : Nat → Prop) (bp p : Nat) : Prop where
  node : p = s.base ∨ F p
  lt : p < bp
  gap : ∀ z, F z → p < z → bp < z

/-- `free` stops where the block belongs. -/
theorem freeLoop_place (hb : Blocks s h F L) {bp : Nat} (hbp : L bp) {rounds p q : Nat}
    (hp : p = s.base ∨ F p) (hloop : freeLoop h bp rounds p = some q) : Place s F bp q := by
  have hbase := hb.base_lt (.inr hbp)
  induction rounds generalizing p with
  | zero => cases hloop
  | succ rounds ih =>
    have hgap : (∀ z, F z → p < z → h.next p ≤ z) ∨ (h.next p = s.base ∧ ∀ z, F z → z ≤ p) := by
      rcases hb.ring.succ p hp with ⟨-, -, hmin⟩ | hlast
      · exact .inl hmin
      · exact .inr hlast
    have hnext := hb.ring.base_le (hb.ring.next_node hp)
    rw [freeLoop] at hloop
    split at hloop
    next hout =>
      split at hloop
      next hlast =>
        cases hloop
        have hbaselast : h.next q = s.base ∧ ∀ z, F z → z ≤ q := by
          rcases hb.ring.succ q hp with ⟨-, hlt, -⟩ | hlast'
          · omega
          · exact hlast'
        refine ⟨hp, by omega, fun z hz hpz ↦ ?_⟩
        have := hbaselast.2 z hz
        omega
      next => exact ih (hb.ring.next_node hp) hloop
    next hin =>
      cases hloop
      have hin' : bp > q ∧ bp < h.next q := Decidable.of_not_not hin
      refine ⟨hp, hin'.1, fun z hz hpz ↦ ?_⟩
      rcases hgap with hmin | ⟨-, hmax⟩
      · exact Nat.lt_of_lt_of_le hin'.2 (hmin z hz hpz)
      · have := hmax z hz
        omega

/-- It gets there. -/
theorem freeLoop_stops (hb : Blocks s h F L) {bp : Nat} (hbp : L bp) {p : Nat}
    (hp : p = s.base ∨ F p) : ∃ rounds q, freeLoop h bp rounds p = some q := by
  obtain ⟨t, ht, hlt, hmax⟩ := Ring.exists_pred F (hb.base_lt (.inr hbp))
  obtain ⟨hbound, hbase⟩ := hb.le_brk
  induction hdist : Ring.dist h.brk t p using Nat.strongRecOn generalizing p with
  | ind d ih =>
    by_cases hpt : p = t
    · subst hpt
      refine ⟨1, p, ?_⟩
      rw [freeLoop]
      split
      next hout =>
        rw [if_pos]
        rcases hb.ring.succ p hp with ⟨hF, hltn, -⟩ | ⟨hnext, -⟩
        · have hne : h.next p ≠ bp := by
            intro heq
            exact hb.excl _ (heq ▸ hF) hbp
          have := hmax _ hF
          omega
        · have := hb.ring.base_le hp
          omega
      next => rfl
    · have hnear := hb.ring.dist_next_lt hbound hbase ht hp hpt
      obtain ⟨rounds, q, hloop⟩ := ih _ (hdist ▸ hnear) (hb.ring.next_node hp) rfl
      by_cases hstop : ¬ (bp > p ∧ bp < h.next p) ∧
          ¬ (p ≥ h.next p ∧ (bp > p ∨ bp < h.next p))
      · refine ⟨rounds + 1, q, ?_⟩
        rw [freeLoop, if_pos hstop.1, if_neg hstop.2]
        exact hloop
      · refine ⟨1, p, ?_⟩
        rw [freeLoop]
        split
        next hout => rw [if_pos (Decidable.of_not_not fun hn ↦ hstop ⟨hout, hn⟩)]
        next => rfl

/-- What `free` does to the blocks. -/
structure Freed (s : Space) (L : Nat → Prop) (bp : Nat) (h h' : Heap) (F' : Nat → Prop) : Prop where
  blocks : Blocks s h' F' fun x ↦ L x ∧ x ≠ bp
  freep : h'.freep = s.base ∨ F' h'.freep
  brk : h'.brk = h.brk
  size : ∀ a, L a → a ≠ bp → h'.size a = h.size a
  found : ∃ t, F' t ∧ h.size bp ≤ h'.size t

private theorem freeAt_freed (hb : Blocks s h F L) {bp p : Nat} (hbp : L bp) (hp : Place s F bp p) :
    ∃ F', Freed s L bp h (freeAt bp p h) F' := by
  have hpb : p ≠ bp := Nat.ne_of_lt hp.lt
  have hroom := hb.room bp (.inr hbp)
  rw [freeAt_eq hp.lt hroom.2.1]
  have hins := hb.insert hbp hp.node hp.lt hp.gap
  have hsize : (insertAt bp p h).size = h.size := by
    rw [insertAt, Heap.size_setPtr, Heap.size_setPtr]
  have hne : bp ≠ (insertAt bp p h).next bp := by
    rcases hins.ring.succ bp (.inr (.inr rfl)) with ⟨-, hlt, -⟩ | ⟨hnext, -⟩
    · exact Nat.ne_of_lt hlt
    · have := hb.base_lt (.inr hbp)
      omega
  obtain ⟨F1, hb1, hF1, hsize1, hfound1⟩ := hins.join (.inr (.inr rfl)) hne
  have hp1 : p = s.base ∨ F1 p :=
    hp.node.imp_right fun hF ↦ (hF1 p (Nat.le_of_lt hp.lt)).mpr (.inl hF)
  have hne1 : p ≠ (mergeAt bp (insertAt bp p h)).next p := by
    have hnext : (mergeAt bp (insertAt bp p h)).next p = bp := by
      have hinsert : (insertAt bp p h).next p = bp := by
        rw [insertAt, Heap.next_setPtr, update_self]
      rw [mergeAt]
      split
      · rw [Heap.next_setPtr, Heap.next_setSize, update_of_ne hpb, hinsert]
      · exact hinsert
    rw [hnext]
    exact hpb
  obtain ⟨F2, hb2, hF2, hsize2, hfound2⟩ := hb1.join hp1 hne1
  have hbrk : (mergeAt p (mergeAt bp (insertAt bp p h))).brk = h.brk := by
    have hmerge : ∀ x g, (mergeAt x g).brk = g.brk := by
      intro x g
      rw [mergeAt]
      split
      · rfl
      · rfl
    rw [hmerge, hmerge, insertAt, Heap.brk_setPtr, Heap.brk_setPtr]
  generalize mergeAt p (mergeAt bp (insertAt bp p h)) = h2 at hb2 hsize2 hfound2 hbrk ⊢
  refine ⟨F2, ?_, ?_, hbrk, ?_, ?_⟩
  · exact hb2.congr (fun _ _ ↦ rfl) rfl
  · exact hp.node.imp_right fun hF ↦ (hF2 p (Nat.le_refl p)).mpr
      ((hF1 p (Nat.le_of_lt hp.lt)).mpr (.inl hF))
  · intro a ha hab
    rw [Heap.size_setFreep, hsize2 a ⟨ha, hab⟩, hsize1 a ⟨ha, hab⟩, hsize]
  · obtain ⟨t1, ht1, hle1⟩ := hfound1 bp (.inr rfl)
    obtain ⟨t2, ht2, hle2⟩ := hfound2 t1 ht1
    rw [hsize] at hle1
    exact ⟨t2, ht2, Nat.le_trans hle1 hle2⟩

/-- `free`, on a block in use. -/
theorem free_freed (hb : Blocks s h F L) (hfreep : h.freep = s.base ∨ F h.freep) {bp : Nat}
    (hbp : L bp) : (∃ rounds h', free rounds (bp + 16) h = some h') ∧
      ∀ rounds h', free rounds (bp + 16) h = some h' → ∃ F', Freed s L bp h h' F' := by
  constructor
  · obtain ⟨rounds, q, hloop⟩ := freeLoop_stops hb hbp hfreep
    exact ⟨rounds, freeAt bp q h, by rw [free, Nat.add_sub_cancel, hloop]; rfl⟩
  · intro rounds h' hfree
    rw [free, Nat.add_sub_cancel] at hfree
    obtain ⟨p, hloop, rfl⟩ := Option.map_eq_some_iff.mp hfree
    exact freeAt_freed hb hbp (freeLoop_place hb hbp hfreep hloop)

end Xv6K210.Umalloc
