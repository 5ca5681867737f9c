import Xv6K210.Slab.Carved

/-!
# The slabs of all buckets

The invariant of the heap: each bucket has a list of slab pages, each slab page and each new
page is in order, and every live object is an object of a page on a list. One lemma tells
for each operation on the heap that it keeps the invariant.
-/

namespace Xv6K210.Slab

open Base Alloc Function

/-- Where a page is. -/
inductive Place (T : Type) where
  | bucket (i : Fin 8)
  | fresh (t : T) (i : Fin 8)
  | leaving (t : T)
  | elsewhere

/-- The page has been cut into objects of a class. -/
def Place.Cut {T : Type} (i : Fin 8) (x : Place T) : Prop := x = .bucket i ∨ ∃ t, x = .fresh t i

/-- The invariant of the heap, with the lists of slabs, the free lists and the places of the
pages. -/
structure HeapInv {T : Type} (z : Zone) (h : Heap) (live : Nat → Option Nat) (held : Nat → Bool)
    (slabs : Fin 8 → List Nat) (free : Nat → List Nat) (place : Nat → Place T) : Prop where
  listed : ∀ i, Listed 0 h.cell.next (h.slabs i) (slabs i)
  nodup : ∀ i, (slabs i).Nodup
  onList : ∀ i a, a ∈ slabs i ↔ place a = .bucket i
  carved : ∀ i a, (place a).Cut i → Carved h.cell live i a (free a)
  page : ∀ a, place a ≠ .elsewhere → a % 4096 = 0 ∧ z.manages (a / 4096) ∧ held a = true
  live : ∀ x n, live x = some n → ∃ i, place (pgrounddown x) = .bucket i ∧
    x ∈ slots i (pgrounddown x) ∧ 0 < n ∧ n ≤ slabSizes i

/-- Every slab on a list has a live object. -/
def Used {T : Type} (live : Nat → Option Nat) (place : Nat → Place T) : Prop :=
  ∀ i a, place a = .bucket i → ∃ x ∈ slots i a, live x ≠ none

namespace HeapInv

variable {T : Type} {z : Zone} {h : Heap} {live : Nat → Option Nat} {held : Nat → Bool}
  {slabs : Fin 8 → List Nat} {free : Nat → List Nat} {place : Nat → Place T}

/-- A page cut into slots is somewhere. -/
theorem not_elsewhere {i : Fin 8} {x : Place T} (hx : x.Cut i) : x ≠ .elsewhere := by
  rintro rfl
  rcases hx with hx | ⟨t, hx⟩ <;> cases hx

/-- No slab is at zero. -/
theorem page_ne_zero (inv : HeapInv z h live held slabs free place) {a : Nat}
    (ha : place a ≠ .elsewhere) : a ≠ 0 := by
  have hpage := inv.page a ha
  have hpos := z.pos
  have hlow := hpage.2.1.1
  omega

/-- The page of a live object and its class. -/
theorem live_slot (inv : HeapInv z h live held slabs free place) {x : Nat} (hx : live x ≠ none) :
    ∃ i, place (pgrounddown x) = .bucket i ∧ x ∈ slots i (pgrounddown x) := by
  obtain ⟨n, hn⟩ := Option.ne_none_iff_exists'.mp hx
  obtain ⟨i, hplace, hslot, _⟩ := inv.live x n hn
  exact ⟨i, hplace, hslot⟩

/-- No object of a page that is not on a list is live. -/
theorem not_live (inv : HeapInv z h live held slabs free place) {a : Nat} (hmod : a % 4096 = 0)
    (ha : ∀ i, place a ≠ .bucket i) {i : Fin 8} {x : Nat} (hx : x ∈ slots i a) :
    live x = none := by
  by_contra hlive
  obtain ⟨j, hplace, _⟩ := inv.live_slot hlive
  rw [pgrounddown_slot hmod hx] at hplace
  exact ha j hplace

/-! ## Writes -/

/-- Only headers of pages that were cut, and the nodes of their free lists, matter. -/
theorem cells (inv : HeapInv z h live held slabs free place) {c' : Cells}
    (hhead : ∀ i a, (place a).Cut i → ∀ d < 32, c' (a + d) = h.cell (a + d))
    (hnode : ∀ i a, (place a).Cut i → ∀ x ∈ free a, c' x = h.cell x) :
    HeapInv z { h with cell := c' } live held slabs free place := by
  refine ⟨fun i ↦ (inv.listed i).congr fun a ha ↦ ?_, inv.nodup, inv.onList, fun i a ha ↦ ?_,
    inv.page, inv.live⟩
  · exact hhead i a (.inl ((inv.onList i a).mp ha)) 16 (by decide)
  · exact (inv.carved i a ha).congr (fun d hd _ ↦ hhead i a ha d hd) (hnode i a ha)
      fun _ _ ↦ rfl

/-- A write into a live object. -/
theorem inside (inv : HeapInv z h live held slabs free place) {c' : Cells} {i : Fin 8} {p : Nat}
    (hplace : place (pgrounddown p) = .bucket i) (hp : p ∈ slots i (pgrounddown p))
    (hlive : live p ≠ none) (hcell : ∀ b, b < p ∨ p + slabSizes i ≤ b → c' b = h.cell b) :
    HeapInv z { h with cell := c' } live held slabs free place := by
  have hb := slot_bounds hp
  have hpage := pgrounddown_mod p
  have hother : ∀ j a, (place a).Cut j → a ≠ pgrounddown p → ∀ b, pgrounddown b = a →
      c' b = h.cell b := fun j a ha hne b hab ↦ by
    apply hcell
    by_contra hin
    apply hne
    rw [← hab]
    unfold pgrounddown at hb hpage ⊢
    omega
  apply inv.cells
  · intro j a ha d hd
    by_cases hap : a = pgrounddown p
    · apply hcell
      rw [hap]
      omega
    · have hmod := (inv.page a (not_elsewhere ha)).1
      apply hother j a ha hap
      unfold pgrounddown
      omega
  · intro j a ha x hx
    have hfree := ((inv.carved j a ha).free x).mp hx
    by_cases hap : a = pgrounddown p
    · have hj : j = i := by
        subst hap
        rw [hplace] at ha
        rcases ha with ha | ⟨t, ha⟩
        · cases ha
          rfl
        · cases ha
      subst hj hap
      have hne : x ≠ p := by
        rintro rfl
        exact hlive hfree.2
      have hpos := slabSizes_pos j
      apply hcell
      rcases slot_apart hfree.1 hp hne with hle | hle
      · left
        omega
      · exact .inr hle
    · have hmod := (inv.page a (not_elsewhere ha)).1
      exact hother j a ha hap x (pgrounddown_slot hmod hfree.1)

/-- A write to a page that the allocator does not have. -/
theorem outside (inv : HeapInv z h live held slabs free place) {c' : Cells} {p : Nat}
    (hp : place p = .elsewhere) (hcell : ∀ b, pgrounddown b ≠ p → c' b = h.cell b) :
    HeapInv z { h with cell := c' } live held slabs free place := by
  have hne : ∀ i a, (place a).Cut i → a ≠ p := by
    rintro i a ha rfl
    exact not_elsewhere ha hp
  apply inv.cells
  · intro i a ha d hd
    have hmod := (inv.page a (not_elsewhere ha)).1
    apply hcell
    have hround : pgrounddown (a + d) = a := by
      unfold pgrounddown
      omega
    rw [hround]
    exact hne i a ha
  · intro i a ha x hx
    have hmod := (inv.page a (not_elsewhere ha)).1
    apply hcell
    rw [pgrounddown_slot hmod (((inv.carved i a ha).free x).mp hx).1]
    exact hne i a ha

/-! ## Pages come and go -/

/-- A page not held is elsewhere. -/
theorem elsewhere_of_not_held (inv : HeapInv z h live held slabs free place) {a : Nat}
    (ha : held a = false) : place a = .elsewhere := by
  by_contra hne
  have hheld := (inv.page a hne).2.2
  rw [ha] at hheld
  cases hheld

/-- `kmalloc` cuts a page from `kalloc_page`. -/
theorem newPage (inv : HeapInv z h live held slabs free place) {p : Nat} (t : T) (i : Fin 8)
    (hp : z.manages p) (hheld : held (4096 * p) = false) :
    HeapInv z { h with cell := h.cell.newSlab (4096 * p) (slabSizes i) } live
      (update held (4096 * p) true) slabs
      (update free (4096 * p) (slots i (4096 * p)).reverse)
      (update place (4096 * p) (.fresh t i)) := by
  have hmod : 4096 * p % 4096 = 0 := Nat.mul_mod_right ..
  have hplace := inv.elsewhere_of_not_held hheld
  have hout := inv.outside hplace fun b hb ↦ h.cell.newSlab_elsewhere i hmod hb
  have hnone : ∀ j, ∀ x ∈ slots j (4096 * p), live x = none := fun j x hx ↦
    inv.not_live hmod (by rw [hplace]; exact nofun) hx
  refine ⟨hout.listed, inv.nodup, fun j a ↦ ?_, fun j a ha ↦ ?_, fun a ha ↦ ?_, fun x n hx ↦ ?_⟩
  · rw [inv.onList]
    by_cases ha : a = 4096 * p
    · rw [ha, update_self, hplace]
      exact ⟨nofun, nofun⟩
    · rw [update_of_ne ha]
  · by_cases hap : a = 4096 * p
    · subst hap
      rw [update_self] at ha
      have hj : j = i := by
        rcases ha with ha | ⟨u, ha⟩
        · cases ha
        · cases ha
          rfl
      rw [hj, update_self]
      exact Carved.new h.cell i (4096 * p) (hnone i)
    · rw [update_of_ne hap] at ha ⊢
      exact hout.carved j a ha
  · by_cases hap : a = 4096 * p
    · rw [hap, update_self, Nat.mul_div_cancel_left p (by decide)]
      exact ⟨hmod, hp, rfl⟩
    · rw [update_of_ne hap] at ha ⊢
      exact inv.page a ha
  · obtain ⟨j, hj, hslot⟩ := inv.live x n hx
    have hne : pgrounddown x ≠ 4096 * p := by
      intro heq
      rw [heq, hplace] at hj
      cases hj
    exact ⟨j, by rw [update_of_ne hne, hj], hslot⟩

/-- A page leaves the hands of a call: `kfree_page`. -/
theorem dropPage (inv : HeapInv z h live held slabs free place) {a : Nat} {t : T}
    (ha : place a = .leaving t) :
    HeapInv z h live (update held a false) slabs free
      (update place a .elsewhere) := by
  have hkeep : ∀ i b, update place a .elsewhere b = .bucket i ↔ place b = .bucket i :=
    fun i b ↦ by
      by_cases hb : b = a
      · rw [hb, update_self, ha]
        exact ⟨nofun, nofun⟩
      · rw [update_of_ne hb]
  refine ⟨inv.listed, inv.nodup, fun i b ↦ ?_, fun i b hb ↦ ?_, fun b hb ↦ ?_, fun x n hx ↦ ?_⟩
  · rw [hkeep, inv.onList]
  · by_cases hba : b = a
    · rw [hba, update_self] at hb
      exact absurd rfl (not_elsewhere hb)
    · rw [update_of_ne hba] at hb
      exact inv.carved i b hb
  · by_cases hba : b = a
    · rw [hba, update_self] at hb
      exact absurd rfl hb
    · rw [update_of_ne hba] at hb ⊢
      exact inv.page b hb
  · obtain ⟨i, hplace, hslot⟩ := inv.live x n hx
    exact ⟨i, (hkeep i _).mpr hplace, hslot⟩

/-- A new page goes in front of the bucket's list. -/
theorem link (inv : HeapInv z h live held slabs free place) {a : Nat} {t : T} {i : Fin 8}
    (ha : place a = .fresh t i) :
    HeapInv z (h.link i a) live held (update slabs i (a :: slabs i)) free
      (update place a (.bucket i)) := by
  have hpage := inv.page a (by rw [ha]; exact nofun)
  have hzero := inv.page_ne_zero (a := a) (by rw [ha]; exact nofun)
  have hnew : ∀ j, a ∉ slabs j := fun j hm ↦ by
    have hj := (inv.onList j a).mp hm
    rw [ha] at hj
    cases hj
  have hcut : ∀ j b, (update place a (.bucket i) b).Cut j → (place b).Cut j := by
    intro j b hb
    by_cases hba : b = a
    · rw [hba, update_self] at hb
      rcases hb with hb | ⟨u, hb⟩
      · cases hb
        exact .inr ⟨t, by rw [hba, ha]⟩
      · cases hb
    · rwa [update_of_ne hba] at hb
  have hnext : ∀ j, ∀ b ∈ slabs j, b ≠ a := by
    rintro j b hb rfl
    exact hnew j hb
  refine ⟨fun j ↦ ?_, fun j ↦ ?_, fun j b ↦ ?_, fun j b hb ↦ ?_, fun b hb ↦ ?_, fun x n hx ↦ ?_⟩
  · have hold : Listed 0 (h.link i a).cell.next (h.slabs j) (slabs j) :=
      (inv.listed j).congr fun b hb ↦ Cells.set_of_ne _ _ (by have hne := hnext j b hb; omega)
    by_cases hj : j = i
    · subst hj
      simp only [Heap.link, update_self]
      refine ⟨rfl, hzero, ?_⟩
      have hhead : (h.link j a).cell.next a = h.slabs j := Cells.set_self ..
      rw [← hhead] at hold
      exact hold
    · simp only [Heap.link, update_of_ne hj]
      exact hold
  · by_cases hj : j = i
    · subst hj
      rw [update_self]
      exact List.nodup_cons.mpr ⟨hnew j, inv.nodup j⟩
    · rw [update_of_ne hj]
      exact inv.nodup j
  · have hon := inv.onList j b
    by_cases hba : b = a
    · subst hba
      rw [update_self]
      by_cases hj : j = i
      · subst hj
        rw [update_self]
        exact ⟨fun _ ↦ rfl, fun _ ↦ List.mem_cons_self⟩
      · rw [update_of_ne hj]
        refine ⟨fun hm ↦ absurd hm (hnew j), fun hx ↦ ?_⟩
        cases hx
        exact absurd rfl hj
    · rw [update_of_ne hba, ← hon]
      by_cases hj : j = i
      · subst hj
        rw [update_self, List.mem_cons]
        exact ⟨fun hm ↦ hm.resolve_left hba, .inr⟩
      · rw [update_of_ne hj]
  · have hold := inv.carved j b (hcut j b hb)
    have hmod := (inv.page b (not_elsewhere (hcut j b hb))).1
    refine hold.congr (fun d hd hne ↦ ?_) (fun x hx ↦ ?_) fun _ _ ↦ rfl
    · exact Cells.set_of_ne _ _ (by omega)
    · have hlow := hold.slot_ge x hx
      have hround := pgrounddown_slot hmod ((hold.free x).mp hx).1
      refine Cells.set_of_ne _ _ ?_
      rintro rfl
      have hroundA : pgrounddown (a + 16) = a := by
        unfold pgrounddown
        omega
      omega
  · by_cases hba : b = a
    · rw [hba]
      exact hpage
    · rw [update_of_ne hba] at hb
      exact inv.page b hb
  · obtain ⟨j, hplace, hslot⟩ := inv.live x n hx
    have hne : pgrounddown x ≠ a := by
      intro heq
      rw [heq, ha] at hplace
      cases hplace
    exact ⟨j, by rw [update_of_ne hne, hplace], hslot⟩

/-! ## Objects come and go -/

/-- A change of one page, of its free list and of which of its objects are live. -/
theorem onPage (inv : HeapInv z h live held slabs free place) {a : Nat} {i : Fin 8}
    (ha : place a = .bucket i) {c' : Cells} {live' : Nat → Option Nat} {l : List Nat}
    (hcarved : Carved c' live' i a l) (hnext : c'.next a = h.cell.next a)
    (hcell : ∀ b, pgrounddown b ≠ a → c' b = h.cell b)
    (hother : ∀ x, pgrounddown x ≠ a → live' x = live x)
    (hlive : ∀ x n, pgrounddown x = a → live' x = some n →
      x ∈ slots i a ∧ 0 < n ∧ n ≤ slabSizes i) :
    HeapInv z { h with cell := c' } live' held slabs (update free a l) place := by
  have hmod := (inv.page a (by rw [ha]; exact nofun)).1
  refine ⟨fun j ↦ (inv.listed j).congr fun b hb ↦ ?_, inv.nodup, inv.onList, fun j b hb ↦ ?_,
    inv.page, fun x n hx ↦ ?_⟩
  · by_cases hba : b = a
    · rw [hba]
      exact hnext
    · have hmodb := (inv.page b (by rw [(inv.onList j b).mp hb]; exact nofun)).1
      apply hcell
      unfold pgrounddown
      omega
  · by_cases hba : b = a
    · subst hba
      have hj : j = i := by
        rw [ha] at hb
        rcases hb with hb | ⟨u, hb⟩
        · cases hb
          rfl
        · cases hb
      rw [hj, update_self]
      exact hcarved
    · rw [update_of_ne hba]
      have hmodb := (inv.page b (not_elsewhere hb)).1
      refine (inv.carved j b hb).elsewhere hmodb (fun x hx ↦ hcell x ?_) fun x hx ↦ hother x ?_
      · rw [hx]
        exact hba
      · rw [hx]
        exact hba
  · by_cases hxa : pgrounddown x = a
    · obtain ⟨hslot, hn⟩ := hlive x n hxa hx
      rw [hxa]
      exact ⟨i, ha, hslot, hn⟩
    · rw [hother x hxa] at hx
      exact inv.live x n hx

/-- A free object of a slab is taken. -/
theorem take (inv : HeapInv z h live held slabs free place) {a n : Nat} {i : Fin 8}
    (ha : place a = .bucket i) (hcount : 0 < h.cell.freeCount a) (hn : 0 < n)
    (hsize : n ≤ slabSizes i) :
    h.cell.freeList a ∈ slots i a ∧ live (h.cell.freeList a) = none ∧
      ∃ free', HeapInv z { h with cell := h.cell.takeNode a }
        (update live (h.cell.freeList a) (some n)) held slabs free' place := by
  have hmod := (inv.page a (by rw [ha]; exact nofun)).1
  have hold := inv.carved i a (.inl ha)
  obtain ⟨l, hl, hcarved⟩ := hold.take hcount n
  have hnode := (hold.free (h.cell.freeList a)).mp (by rw [hl]; exact List.mem_cons_self)
  have hround := pgrounddown_slot hmod hnode.1
  refine ⟨hnode.1, hnode.2, _, inv.onPage ha hcarved ?_
    (fun b hb ↦ h.cell.takeNode_elsewhere hmod hb) (fun x hx ↦ ?_) fun x m hx hlive ↦ ?_⟩
  · exact h.cell.takeNode_of_ne (by omega) (by omega)
  · apply update_of_ne
    rintro rfl
    exact hx hround
  · by_cases hxn : x = h.cell.freeList a
    · rw [hxn, update_self] at hlive
      cases hlive
      rw [hxn]
      exact ⟨hnode.1, hn, hsize⟩
    · rw [update_of_ne hxn] at hlive
      obtain ⟨j, hplace, hslot, hm⟩ := inv.live x m hlive
      rw [hx, ha] at hplace
      cases hplace
      rw [hx] at hslot
      exact ⟨hslot, hm⟩

/-- A live object is given back. -/
theorem give (inv : HeapInv z h live held slabs free place) {p : Nat} {i : Fin 8}
    (hplace : place (pgrounddown p) = .bucket i) (hp : p ∈ slots i (pgrounddown p))
    (hlive : live p ≠ none) :
    HeapInv z { h with cell := h.cell.giveNode (pgrounddown p) p } (update live p none)
      held slabs (update free (pgrounddown p) (p :: free (pgrounddown p))) place := by
  have hmod := pgrounddown_mod p
  have hold := inv.carved i _ (.inl hplace)
  have hb := slot_bounds hp
  refine inv.onPage hplace (hold.give hp hlive) ?_
    (fun b hb ↦ h.cell.giveNode_elsewhere hmod hp hold.objSize hb) (fun x hx ↦ ?_)
    fun x m hx hm ↦ ?_
  · rw [Cells.giveNode_eq, Cells.next, Cells.pushNode_of_ne _ (by omega) (by omega) (by omega)]
    exact Cells.memset_of_not _ _ (by omega)
  · apply update_of_ne
    rintro rfl
    exact hx rfl
  · have hxp : x ≠ p := by
      rintro rfl
      rw [update_self] at hm
      cases hm
    rw [update_of_ne hxp] at hm
    obtain ⟨j, hj, hslot, hn⟩ := inv.live x m hm
    rw [hx, hplace] at hj
    cases hj
    rw [hx] at hslot
    exact ⟨hslot, hn⟩

/-! ## A page leaves its list -/

/-- The lists without the page. -/
theorem listed_unlink (inv : HeapInv z h live held slabs free place) {a : Nat} {i : Fin 8}
    {prev : Link} (ha : place a = .bucket i) (hprev : h.load i prev = a)
    (hin : prev = .head ∨ ∃ b ∈ slabs i, prev = .next b) (j : Fin 8) :
    Listed 0 (h.unlink i a prev).cell.next ((h.unlink i a prev).slabs j)
      (update slabs i ((slabs i).erase a) j) := by
  have hzero := inv.page_ne_zero (a := a) (by rw [ha]; exact nofun)
  have hmoda := (inv.page a (by rw [ha]; exact nofun)).1
  have hmod : ∀ j, ∀ b ∈ slabs j, b % 4096 = 0 := fun j b hb ↦
    (inv.page b (by rw [(inv.onList j b).mp hb]; exact nofun)).1
  rcases hin with rfl | ⟨d, hd, rfl⟩
  · have hkeep : ∀ k, ∀ b ∈ slabs k, (h.unlink i a .head).cell.next b = h.cell.next b := by
      intro k b hb
      have hmodb := hmod k b hb
      exact Cells.set_of_ne _ _ (by omega)
    by_cases hj : j = i
    · subst hj
      have hne : h.slabs j ≠ 0 := fun heq ↦ hzero (hprev.symm.trans heq)
      obtain ⟨l, hl, hlisted⟩ := (inv.listed j).pop hne
      have hhead : h.slabs j = a := hprev
      have herase : (slabs j).erase a = l := by rw [hl, hhead, List.erase_cons_head]
      rw [update_self, herase]
      have hslabs : (h.unlink j a .head).slabs j = h.cell.next (h.slabs j) := by
        simp only [Heap.unlink, Heap.store, update_self, hhead]
      rw [hslabs]
      exact hlisted.congr fun b hb ↦ hkeep j b (by rw [hl]; exact List.mem_cons_of_mem _ hb)
    · have hslabs : (h.unlink i a .head).slabs j = h.slabs j := by
        simp only [Heap.unlink, Heap.store, update_of_ne hj]
      rw [update_of_ne hj, hslabs]
      exact (inv.listed j).congr (hkeep j)
  · have hload : h.cell.next d = a := hprev
    have hmodd := hmod i d hd
    have hnext : ∀ k, ∀ b ∈ slabs k, (h.unlink i a (.next d)).cell.next b =
        update h.cell.next d (h.cell.next a) b := by
      intro k b hb
      have hmodb := hmod k b hb
      have hmagic : (h.unlink i a (.next d)).cell.next b =
          (h.cell.set (d + 16) (h.cell.next a)).next b := Cells.set_of_ne _ _ (by omega)
      rw [hmagic]
      by_cases hbd : b = d
      · rw [hbd, update_self]
        exact Cells.set_self ..
      · rw [update_of_ne hbd]
        exact Cells.set_of_ne _ _ (by omega)
    change Listed 0 _ (h.slabs j) _
    by_cases hj : j = i
    · subst hj
      have hunlink := (inv.listed j).unlink (inv.nodup j) hd (by rw [hload]; exact hzero)
      rw [hload] at hunlink
      rw [update_self]
      exact hunlink.congr fun b hb ↦ hnext j b (List.mem_of_mem_erase hb)
    · rw [update_of_ne hj]
      refine (inv.listed j).congr fun b hb ↦ ?_
      rw [hnext j b hb]
      apply update_of_ne
      rintro rfl
      have hother := (inv.onList j b).mp hb
      rw [(inv.onList i b).mp hd] at hother
      cases hother
      exact hj rfl

/-- The page that its link points to leaves the list. -/
theorem unlinked (inv : HeapInv z h live held slabs free place) {a : Nat} {i : Fin 8} (t : T)
    {prev : Link} (ha : place a = .bucket i) (hnone : ∀ x ∈ slots i a, live x = none)
    (hprev : h.load i prev = a) (hin : prev = .head ∨ ∃ b ∈ slabs i, prev = .next b) :
    HeapInv z (h.unlink i a prev) live held (update slabs i ((slabs i).erase a)) free
      (update place a (.leaving t)) := by
  have hpage := inv.page a (by rw [ha]; exact nofun)
  have hzero := inv.page_ne_zero (a := a) (by rw [ha]; exact nofun)
  have hmem := (inv.onList i a).mpr ha
  have hmod : ∀ j, ∀ b ∈ slabs j, b % 4096 = 0 := fun j b hb ↦
    (inv.page b (by rw [(inv.onList j b).mp hb]; exact nofun)).1
  -- the only cells that change are the link to the page and its magic number
  have hcell : ∀ b, b ≠ a → (∀ d ∈ slabs i, prev = .next d → b ≠ d + 16) →
      (h.unlink i a prev).cell b = h.cell b := by
    intro b hb hlink
    simp only [Heap.unlink]
    rw [Cells.set_of_ne _ _ hb]
    rcases hin with rfl | ⟨d, hd, rfl⟩
    · rfl
    · exact Cells.set_of_ne _ _ (hlink d hd rfl)
  have hcut : ∀ j b, (update place a (.leaving t) b).Cut j → b ≠ a ∧ (place b).Cut j := by
    intro j b hb
    by_cases hba : b = a
    · rw [hba, update_self] at hb
      rcases hb with hb | ⟨u, hb⟩ <;> cases hb
    · rw [update_of_ne hba] at hb
      exact ⟨hba, hb⟩
  refine ⟨inv.listed_unlink ha hprev hin, fun j ↦ ?_, fun j b ↦ ?_, fun j b hb ↦ ?_,
    fun b hb ↦ ?_, fun x n hx ↦ ?_⟩
  · by_cases hj : j = i
    · subst hj
      rw [update_self]
      exact (inv.nodup j).erase a
    · rw [update_of_ne hj]
      exact inv.nodup j
  · have hon := inv.onList j b
    by_cases hba : b = a
    · subst hba
      rw [update_self]
      refine ⟨fun hm ↦ ?_, nofun⟩
      by_cases hj : j = i
      · subst hj
        rw [update_self] at hm
        exact absurd hm (List.Nodup.not_mem_erase (inv.nodup j))
      · rw [update_of_ne hj] at hm
        have hplace := hon.mp hm
        rw [ha] at hplace
        cases hplace
        exact absurd rfl hj
    · rw [update_of_ne hba, ← hon]
      by_cases hj : j = i
      · subst hj
        rw [update_self, List.mem_erase_of_ne hba]
      · rw [update_of_ne hj]
  · obtain ⟨hba, hb⟩ := hcut j b hb
    have hold := inv.carved j b hb
    have hmodb := (inv.page b (not_elsewhere hb)).1
    refine hold.congr (fun d hd hne ↦ hcell _ ?_ fun e he _ ↦ ?_)
      (fun x hx ↦ hcell _ ?_ fun e he _ ↦ ?_) fun _ _ ↦ rfl
    · have hmoda := hpage.1
      omega
    · have hmode := hmod i e he
      omega
    · have hlow := hold.slot_ge x hx
      have hround := pgrounddown_slot hmodb ((hold.free x).mp hx).1
      have hmoda := hpage.1
      rintro rfl
      rw [pgrounddown_page hmoda] at hround
      exact hba hround.symm
    · have hlow := hold.slot_ge x hx
      have hround := pgrounddown_slot hmodb ((hold.free x).mp hx).1
      have hmode := hmod i e he
      rintro rfl
      unfold pgrounddown at hround
      omega
  · by_cases hba : b = a
    · rw [hba]
      exact hpage
    · rw [update_of_ne hba] at hb
      exact inv.page b hb
  · obtain ⟨j, hplace, hslot, hn⟩ := inv.live x n hx
    have hne : pgrounddown x ≠ a := by
      intro heq
      rw [heq, ha] at hplace
      cases hplace
      rw [heq] at hslot
      rw [hnone x hslot] at hx
      cases hx
    exact ⟨j, by rw [update_of_ne hne, hplace], hslot, hn⟩

/-! ## The walks -/

/-- The walk of `kmalloc` ends, at a slab with a free object or at the end of the list. -/
theorem firstFree_spec {a : Nat} {l : List Nat} (hl : Listed 0 h.cell.next a l) (fuel r : Nat)
    (hr : h.firstFree fuel a = some r) : r = 0 ∨ r ∈ l ∧ 0 < h.cell.freeCount r := by
  induction fuel generalizing a l with
  | zero => cases hr
  | succ fuel ih =>
    rw [Heap.firstFree] at hr
    by_cases hnull : a = 0
    · rw [if_pos hnull] at hr
      cases hr
      exact .inl rfl
    · rw [if_neg hnull] at hr
      obtain ⟨l', rfl, hl'⟩ := hl.pop hnull
      by_cases hcount : 0 < h.cell.freeCount a
      · rw [if_pos hcount] at hr
        cases hr
        exact .inr ⟨List.mem_cons_self, hcount⟩
      · rw [if_neg hcount] at hr
        rcases ih hl' hr with hzero | ⟨hmem, hpos⟩
        · exact .inl hzero
        · exact .inr ⟨List.mem_cons_of_mem _ hmem, hpos⟩

/-- `firstFree` ends on a list. -/
theorem firstFree_returns {a : Nat} {l : List Nat} (hl : Listed 0 h.cell.next a l) :
    ∃ r, h.firstFree (l.length + 1) a = some r := by
  induction l generalizing a with
  | nil =>
    have hnull : a = 0 := hl
    exact ⟨0, by rw [Heap.firstFree, if_pos hnull]⟩
  | cons b l ih =>
    obtain ⟨rfl, hne, hl'⟩ := hl
    rw [Heap.firstFree, if_neg hne]
    by_cases hcount : 0 < h.cell.freeCount a
    · exact ⟨a, by rw [if_pos hcount]⟩
    · rw [if_neg hcount]
      exact ih hl'

/-- The walk of `kfree` ends at the link to the slab, when the slab is on the list. -/
theorem findLink_spec {i : Fin 8} {a : Nat} {prev r : Link} {l : List Nat}
    (hl : Listed 0 h.cell.next (h.load i prev) l) (ha : a ∈ l) (fuel : Nat)
    (hr : h.findLink i a fuel prev = some r) :
    h.load i r = a ∧ (r = prev ∨ ∃ b ∈ l, r = .next b) := by
  induction fuel generalizing prev l with
  | zero => cases hr
  | succ fuel ih =>
    have hne : h.load i prev ≠ 0 := fun heq ↦ by
      rw [heq] at hl
      rw [hl.eq_nil] at ha
      exact absurd ha List.not_mem_nil
    obtain ⟨l', rfl, hl'⟩ := hl.pop hne
    rw [Heap.findLink] at hr
    by_cases hstop : h.load i prev = 0 ∨ h.load i prev = a
    · rw [if_pos hstop] at hr
      cases hr
      exact ⟨hstop.resolve_left hne, .inl rfl⟩
    · rw [if_neg hstop] at hr
      have ha' : a ∈ l' := (List.mem_cons.mp ha).resolve_left fun heq ↦ hstop (.inr heq.symm)
      have hnext : Listed 0 h.cell.next (h.load i (.next (h.load i prev))) l' := hl'
      obtain ⟨hload, hlink⟩ := ih hnext ha' hr
      rcases hlink with rfl | ⟨b, hb, rfl⟩
      · exact ⟨hload, .inr ⟨h.load i prev, List.mem_cons_self, rfl⟩⟩
      · exact ⟨hload, .inr ⟨b, List.mem_cons_of_mem _ hb, rfl⟩⟩

/-- `findLink` ends on a list. -/
theorem findLink_returns {i : Fin 8} {a : Nat} {prev : Link} {l : List Nat}
    (hl : Listed 0 h.cell.next (h.load i prev) l) :
    ∃ r, h.findLink i a (l.length + 1) prev = some r := by
  induction l generalizing prev with
  | nil =>
    have hnull : h.load i prev = 0 := hl
    exact ⟨prev, by rw [Heap.findLink, if_pos (.inl hnull)]⟩
  | cons b l ih =>
    rw [Heap.findLink]
    by_cases hstop : h.load i prev = 0 ∨ h.load i prev = a
    · exact ⟨prev, by rw [if_pos hstop]⟩
    · rw [if_neg hstop]
      obtain ⟨hb, _, hl'⟩ := hl
      rw [← hb] at hl'
      have hnext : Listed 0 h.cell.next (h.load i (.next (h.load i prev))) l := hl'
      exact ih hnext

end HeapInv

end Xv6K210.Slab
