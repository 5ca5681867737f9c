import Xv6K210.Slab.Heap

/-!
# One slab page

Where the objects of a slab page are, and what its header says about its free list. Taking
an object, giving it back and writing into a live one keep the page in order.
-/

namespace Xv6K210.Slab

open Base Alloc Function

/-- The header of a slab has 32 bytes. -/
theorem slabDataOffset_eq : slabDataOffset = 32 := by decide

/-- Objects have a size. -/
theorem slabSizes_pos (i : Fin 8) : 0 < slabSizes i := by
  revert i
  decide

private theorem slabSizes_dvd (i : Fin 8) : 16 ∣ slabSizes i := by
  revert i
  decide

/-- A bucket that serves a request has objects of at least the size asked for. -/
theorem le_slabSizes {size : Nat} {i : Fin 8} (h : slabBucketIndex size = some i) :
    size ≤ slabSizes i := by
  unfold slabBucketIndex at h
  have hsome := List.find?_some h
  exact of_decide_eq_true hsome

/-- Requests for more than the largest class have no bucket. -/
theorem slabBucketIndex_eq_none {size : Nat} (h : 2048 < size) : slabBucketIndex size = none := by
  have hle : ∀ i, slabSizes i ≤ 2048 := by decide
  unfold slabBucketIndex
  rw [List.find?_eq_none]
  intro i _ hi
  have hsize := of_decide_eq_true hi
  have hmax := hle i
  omega

/-- A class finds its own bucket. -/
theorem slabBucketIndex_slabSizes (i : Fin 8) : slabBucketIndex (slabSizes i) = some i := by
  revert i
  decide

/-! ## The objects of a page -/

/-- How many objects of a class fit into a page after the header. -/
def count (i : Fin 8) : Nat := (4096 - slabDataOffset) / slabSizes i

/-- A slab has room for an object. -/
theorem count_pos (i : Fin 8) : 0 < count i := by
  revert i
  decide

private theorem count_lt (i : Fin 8) : count i < 256 := by
  revert i
  decide

/-- The addresses of the objects of a page. -/
def slots (i : Fin 8) (page : Nat) : List Nat :=
  (List.range (count i)).map fun k ↦ page + slabDataOffset + k * slabSizes i

variable {i : Fin 8} {page x y : Nat}

/-- The slots of a page, by number. -/
theorem mem_slots : x ∈ slots i page ↔ ∃ k < count i, page + 32 + k * slabSizes i = x := by
  unfold slots
  rw [List.mem_map, slabDataOffset_eq]
  simp only [List.mem_range]

private theorem length_slots (i : Fin 8) (page : Nat) : (slots i page).length = count i := by
  simp [slots]

/-- The slots of a page are different. -/
theorem nodup_slots (i : Fin 8) (page : Nat) : (slots i page).Nodup := by
  refine (List.nodup_range (n := count i)).map fun k l h ↦ ?_
  have hmul : k * slabSizes i = l * slabSizes i := Nat.add_left_cancel h
  exact Nat.eq_of_mul_eq_mul_right (slabSizes_pos i) hmul

/-- An object lies after the header and within the page. -/
theorem slot_bounds (h : x ∈ slots i page) :
    page + 32 ≤ x ∧ x + slabSizes i ≤ page + 4096 := by
  obtain ⟨k, hk, rfl⟩ := mem_slots.mp h
  have hmul : (k + 1) * slabSizes i ≤ count i * slabSizes i := Nat.mul_le_mul_right _ hk
  have hdiv : count i * slabSizes i ≤ 4096 - slabDataOffset := Nat.div_mul_le_self _ _
  rw [Nat.succ_mul] at hmul
  rw [slabDataOffset_eq] at hdiv
  omega

/-- Two objects of a page do not overlap. -/
theorem slot_apart (hx : x ∈ slots i page) (hy : y ∈ slots i page) (h : x ≠ y) :
    x + slabSizes i ≤ y ∨ y + slabSizes i ≤ x := by
  obtain ⟨k, _, rfl⟩ := mem_slots.mp hx
  obtain ⟨l, _, rfl⟩ := mem_slots.mp hy
  rcases Nat.lt_trichotomy k l with hlt | rfl | hlt
  · have hmul : (k + 1) * slabSizes i ≤ l * slabSizes i := Nat.mul_le_mul_right _ hlt
    rw [Nat.succ_mul] at hmul
    left
    omega
  · exact absurd rfl h
  · have hmul : (l + 1) * slabSizes i ≤ k * slabSizes i := Nat.mul_le_mul_right _ hlt
    rw [Nat.succ_mul] at hmul
    right
    omega

/-- The objects of a page are aligned. -/
theorem slot_aligned (hpage : page % 4096 = 0) (h : x ∈ slots i page) : x % 16 = 0 := by
  obtain ⟨k, _, rfl⟩ := mem_slots.mp h
  obtain ⟨d, hd⟩ := slabSizes_dvd i
  have hk : k * slabSizes i = 16 * (k * d) := by rw [hd, Nat.mul_left_comm]
  omega

/-- The page of an object. -/
theorem pgrounddown_slot (hpage : page % 4096 = 0) (h : x ∈ slots i page) :
    pgrounddown x = page := by
  have hb := slot_bounds h
  have hpos := slabSizes_pos i
  unfold pgrounddown
  omega

/-- A page is its own start. -/
theorem pgrounddown_page (hpage : page % 4096 = 0) : pgrounddown page = page := by
  unfold pgrounddown
  omega

/-- The start of a page is aligned. -/
theorem pgrounddown_mod (a : Nat) : pgrounddown a % 4096 = 0 := by
  unfold pgrounddown
  omega

/-! ## The header and the free list -/

/-- The page is a slab of class `i`: its header is right, and its free list holds the objects
that are not live. -/
structure Carved (c : Cells) (live : Nat → Option Nat) (i : Fin 8) (page : Nat) (l : List Nat) :
    Prop where
  magic : c.magic page = slabMagic
  objSize : c.objSize page = slabSizes i
  total : c.total page = count i
  freeCount : c.freeCount page = l.length
  listed : Listed 0 c (c.freeList page) l
  nodup : l.Nodup
  free : ∀ x, x ∈ l ↔ x ∈ slots i page ∧ live x = none

namespace Carved

variable {c c' : Cells} {live live' : Nat → Option Nat} {l : List Nat}

/-- Only the header, without the link to the next slab, and the nodes of the free list matter,
and which objects of the page are live. -/
theorem congr (h : Carved c live i page l)
    (hhead : ∀ d, d < 32 → d ≠ 16 → c' (page + d) = c (page + d)) (hnode : ∀ x ∈ l, c' x = c x)
    (hlive : ∀ x ∈ slots i page, live' x = live x) : Carved c' live' i page l := by
  have hlist : c'.freeList page = c.freeList page := hhead 24 (by decide) (by decide)
  refine ⟨(hhead 0 (by decide) (by decide)).trans h.magic,
    (hhead 4 (by decide) (by decide)).trans h.objSize,
    (hhead 8 (by decide) (by decide)).trans h.total,
    (hhead 12 (by decide) (by decide)).trans h.freeCount, ?_, h.nodup, fun x ↦ ?_⟩
  · rw [hlist]
    exact h.listed.congr hnode
  · rw [h.free]
    constructor
    · rintro ⟨hx, hl⟩
      exact ⟨hx, (hlive x hx).trans hl⟩
    · rintro ⟨hx, hl⟩
      exact ⟨hx, (hlive x hx).symm.trans hl⟩

/-- What happens on other pages does not matter. -/
theorem elsewhere (h : Carved c live i page l) (hpage : page % 4096 = 0)
    (hcell : ∀ b, pgrounddown b = page → c' b = c b)
    (hlive : ∀ x, pgrounddown x = page → live' x = live x) : Carved c' live' i page l := by
  refine h.congr (fun d hd _ ↦ hcell _ ?_) (fun x hx ↦ hcell _ ?_) fun x hx ↦ hlive _ ?_
  · unfold pgrounddown
    omega
  · exact pgrounddown_slot hpage ((h.free x).mp hx).1
  · exact pgrounddown_slot hpage hx

/-- What happens inside a live object does not matter. -/
theorem inside (h : Carved c live i page l) {p : Nat} (hp : p ∈ slots i page)
    (hlive : live p ≠ none) (hcell : ∀ b, b < p ∨ p + slabSizes i ≤ b → c' b = c b) :
    Carved c' live i page l := by
  refine h.congr (fun d hd _ ↦ hcell _ (.inl ?_)) (fun x hx ↦ hcell _ ?_) fun _ _ ↦ rfl
  · have hb := slot_bounds hp
    omega
  · have hfree := (h.free x).mp hx
    have hne : x ≠ p := by
      rintro rfl
      exact hlive hfree.2
    have hpos := slabSizes_pos i
    rcases slot_apart hfree.1 hp hne with hle | hle
    · left
      omega
    · exact .inr hle

/-- The free list and the live objects make up the page. -/
theorem length_add (h : Carved c live i page l) :
    l.length + ((slots i page).filter fun x ↦ (live x).isSome).length = count i := by
  have hperm : l.Perm ((slots i page).filter fun x ↦ !(live x).isSome) := by
    rw [List.perm_ext_iff_of_nodup h.nodup ((nodup_slots i page).filter _)]
    intro x
    rw [h.free, List.mem_filter]
    simp
  have hsum := List.length_eq_length_filter_add (l := slots i page) fun x ↦ (live x).isSome
  rw [hperm.length_eq, ← length_slots i page]
  omega

/-- The free list is shorter than the page exactly when an object is live. -/
theorem length_lt_iff (h : Carved c live i page l) :
    l.length < count i ↔ ∃ x ∈ slots i page, live x ≠ none := by
  have hsum := h.length_add
  constructor
  · intro hlt
    have hpos : 0 < ((slots i page).filter fun x ↦ (live x).isSome).length := by omega
    obtain ⟨x, hx⟩ := List.exists_mem_of_length_pos hpos
    obtain ⟨hmem, hlive⟩ := List.mem_filter.mp hx
    refine ⟨x, hmem, fun hnone ↦ ?_⟩
    rw [hnone] at hlive
    cases hlive
  · rintro ⟨x, hmem, hlive⟩
    have hx : x ∈ (slots i page).filter fun x ↦ (live x).isSome :=
      List.mem_filter.mpr ⟨hmem, Option.isSome_iff_ne_none.mpr hlive⟩
    have hpos := List.length_pos_of_mem hx
    omega

end Carved

/-! ## Operations on one page -/

private theorem inc_eq {x : Nat} (h : x < 256) : inc x = x + 1 := by
  unfold inc
  omega

private theorem dec_eq {x : Nat} (h : 0 < x) (hlt : x < 256) : dec x = x - 1 := by
  unfold dec
  omega

namespace Cells

variable (c : Cells)

/-- The cell just written. -/
theorem set_self (a v : Nat) : c.set a v a = v := update_self ..

/-- Other cells stay. -/
theorem set_of_ne {a b : Nat} (v : Nat) (h : b ≠ a) : c.set a v b = c b :=
  update_of_ne h ..

/-- `memset` stays in its range. -/
theorem memset_of_not {a len b : Nat} (v : Nat) (h : b < a ∨ a + len ≤ b) :
    c.memset a len v b = c b := by
  unfold memset
  rw [if_neg]
  omega

/-- Taking a node changes two cells of the header. -/
theorem takeNode_of_ne {slab b : Nat} (h : b ≠ slab + 12) (h' : b ≠ slab + 24) :
    c.takeNode slab b = c b := by
  simp only [takeNode]
  rw [set_of_ne _ _ h, set_of_ne _ _ h']

private theorem freeList_takeNode (slab : Nat) :
    (c.takeNode slab).freeList slab = c (c.freeList slab) := by
  simp only [takeNode, freeList]
  rw [set_of_ne _ _ (by omega), set_self]

private theorem freeCount_takeNode (slab : Nat) :
    (c.takeNode slab).freeCount slab = dec (c.freeCount slab) := by
  simp only [takeNode, freeCount]
  rw [set_self, set_of_ne _ _ (by omega)]

/-- `giveNode` without the `memset`. -/
def pushNode (slab ptr : Nat) : Cells :=
  let c := c.set ptr (c.freeList slab)
  let c := c.set (slab + 24) ptr
  c.set (slab + 12) (inc (c.freeCount slab))

/-- Giving an object back in two steps. -/
theorem giveNode_eq (slab ptr : Nat) :
    c.giveNode slab ptr = (c.memset ptr (c.objSize slab) 1).pushNode slab ptr := rfl

/-- Pushing a node changes the node and two cells. -/
theorem pushNode_of_ne {slab ptr b : Nat} (hptr : b ≠ ptr) (h : b ≠ slab + 12)
    (h' : b ≠ slab + 24) : c.pushNode slab ptr b = c b := by
  simp only [pushNode]
  rw [set_of_ne _ _ h, set_of_ne _ _ h', set_of_ne _ _ hptr]

private theorem freeList_pushNode (slab ptr : Nat) : (c.pushNode slab ptr).freeList slab = ptr := by
  simp only [pushNode, freeList]
  rw [set_of_ne _ _ (by omega), set_self]

private theorem freeCount_pushNode {slab ptr : Nat} (h : slab + 12 ≠ ptr) :
    (c.pushNode slab ptr).freeCount slab = inc (c.freeCount slab) := by
  simp only [pushNode, freeCount]
  rw [set_self, set_of_ne _ _ (by omega), set_of_ne _ _ h]

private theorem pushNode_node {slab ptr : Nat} (h : ptr ≠ slab + 12) (h' : ptr ≠ slab + 24) :
    c.pushNode slab ptr ptr = c.freeList slab := by
  simp only [pushNode]
  rw [set_of_ne _ _ h, set_of_ne _ _ h', set_self]

/-- A node that is pushed is in front of the free list. -/
theorem listed_pushNode {slab ptr : Nat} {l : List Nat} (hl : Listed 0 c (c.freeList slab) l)
    (hslab : ∀ x ∈ l, slab + 32 ≤ x) (hptr : slab + 32 ≤ ptr) (hnew : ptr ∉ l) :
    Listed 0 (c.pushNode slab ptr) ptr (ptr :: l) := by
  refine ⟨rfl, by omega, ?_⟩
  rw [pushNode_node c (by omega) (by omega)]
  apply hl.congr
  intro x hx
  have hlow := hslab x hx
  apply pushNode_of_ne
  · rintro rfl
    exact hnew hx
  · omega
  · omega

end Cells

namespace Carved

variable {c : Cells} {live : Nat → Option Nat} {l : List Nat}

/-- Slots lie behind the header. -/
theorem slot_ge (h : Carved c live i page l) : ∀ x ∈ l, page + 32 ≤ x :=
  fun x hx ↦ (slot_bounds ((h.free x).mp hx).1).1

/-- No more free slots than slots. -/
theorem length_le (h : Carved c live i page l) : l.length ≤ count i := by
  have hsum := h.length_add
  omega

/-- The first free object is taken: it is live. -/
theorem take (h : Carved c live i page l) (hcount : 0 < c.freeCount page) (n : Nat) :
    ∃ l', l = c.freeList page :: l' ∧
      Carved (c.takeNode page) (update live (c.freeList page) (some n)) i page l' := by
  have hne : c.freeList page ≠ 0 := fun hnull ↦ by
    have hlisted := h.listed
    rw [hnull] at hlisted
    rw [h.freeCount, hlisted.eq_nil] at hcount
    exact absurd hcount (Nat.lt_irrefl 0)
  obtain ⟨l', hl, hlisted⟩ := h.listed.pop hne
  have hnodup := h.nodup
  rw [hl] at hnodup
  have hge := h.slot_ge
  rw [hl] at hge
  have hlen := h.freeCount
  rw [hl, List.length_cons] at hlen
  have hsize := h.length_le
  rw [hl, List.length_cons] at hsize
  have hmax := count_lt i
  have hkeep : ∀ d, d ≠ 12 → d ≠ 24 → c.takeNode page (page + d) = c (page + d) :=
    fun d h12 h24 ↦ c.takeNode_of_ne (by omega) (by omega)
  refine ⟨l', hl, (hkeep 0 (by decide) (by decide)).trans h.magic,
    (hkeep 4 (by decide) (by decide)).trans h.objSize,
    (hkeep 8 (by decide) (by decide)).trans h.total, ?_, ?_, (List.nodup_cons.mp hnodup).2,
    fun x ↦ ?_⟩
  · rw [Cells.freeCount_takeNode, dec_eq hcount (by omega)]
    omega
  · rw [Cells.freeList_takeNode]
    apply hlisted.congr
    intro x hx
    have hlow := hge x (List.mem_cons_of_mem _ hx)
    exact c.takeNode_of_ne (by omega) (by omega)
  · have hfree := h.free x
    rw [hl, List.mem_cons] at hfree
    by_cases hx : x = c.freeList page
    · rw [hx, update_self]
      exact ⟨fun hm ↦ absurd hm (List.nodup_cons.mp hnodup).1, fun hm ↦ by cases hm.2⟩
    · rw [update_of_ne hx, ← hfree]
      exact ⟨.inr, fun hm ↦ hm.resolve_left hx⟩

/-- A live object is given back: it is the first free one. -/
theorem give (h : Carved c live i page l) {p : Nat} (hp : p ∈ slots i page)
    (hlive : live p ≠ none) :
    Carved (c.giveNode page p) (update live p none) i page (p :: l) := by
  have hb := slot_bounds hp
  have hset : Carved (c.memset p (c.objSize page) 1) live i page l :=
    h.inside hp hlive fun b hb ↦ by
      rw [h.objSize]
      exact c.memset_of_not 1 hb
  have hnew : p ∉ l := fun hm ↦ hlive ((h.free p).mp hm).2
  have hlt : l.length < count i := h.length_lt_iff.mpr ⟨p, hp, hlive⟩
  have hmax := count_lt i
  rw [Cells.giveNode_eq]
  set m := c.memset p (c.objSize page) 1
  have hkeep : ∀ d, d < 32 → d ≠ 12 → d ≠ 24 → m.pushNode page p (page + d) = m (page + d) :=
    fun d hd h12 h24 ↦ m.pushNode_of_ne (by omega) (by omega) (by omega)
  refine ⟨(hkeep 0 (by decide) (by decide) (by decide)).trans hset.magic,
    (hkeep 4 (by decide) (by decide) (by decide)).trans hset.objSize,
    (hkeep 8 (by decide) (by decide) (by decide)).trans hset.total, ?_, ?_,
    List.nodup_cons.mpr ⟨hnew, h.nodup⟩, fun x ↦ ?_⟩
  · rw [Cells.freeCount_pushNode _ (by omega), hset.freeCount, inc_eq (by omega)]
    rfl
  · rw [Cells.freeList_pushNode]
    exact m.listed_pushNode hset.listed h.slot_ge hb.1 hnew
  · rw [List.mem_cons, h.free]
    by_cases hx : x = p
    · rw [hx, update_self]
      exact ⟨fun _ ↦ ⟨hp, rfl⟩, fun _ ↦ .inl rfl⟩
    · rw [update_of_ne hx]
      exact ⟨fun hm ↦ hm.resolve_left hx, .inr⟩

end Carved

/-! ## A new page -/

/-- The loop that cuts a page, after its first `k` turns. -/
theorem Cells.cut_spec (left k : Nat) (c : Cells) (hk : k + left = count i)
    (hcount : c.freeCount page = k)
    (hlist : Listed 0 c (c.freeList page)
      ((List.range k).map fun k ↦ page + slabDataOffset + k * slabSizes i).reverse) :
    (cut page (slabSizes i) left k c).freeCount page = count i ∧
      Listed 0 (cut page (slabSizes i) left k c)
        ((cut page (slabSizes i) left k c).freeList page) (slots i page).reverse ∧
      ∀ b, b ∉ slots i page → b ≠ page + 12 → b ≠ page + 24 →
        cut page (slabSizes i) left k c b = c b := by
  induction left generalizing k c with
  | zero =>
    have hfull : k = count i := hk
    subst hfull
    exact ⟨hcount, hlist, fun _ _ _ _ ↦ rfl⟩
  | succ left ih =>
    have hlt : k < count i := by omega
    have hmax := count_lt i
    have hslot : page + slabDataOffset + k * slabSizes i ∈ slots i page :=
      List.mem_map.mpr ⟨k, List.mem_range.mpr hlt, rfl⟩
    have hb := slot_bounds hslot
    have hge : ∀ x ∈ ((List.range k).map
        fun k ↦ page + slabDataOffset + k * slabSizes i).reverse, page + 32 ≤ x := by
      intro x hx
      obtain ⟨j, hj, rfl⟩ := List.mem_map.mp (List.mem_reverse.mp hx)
      have hj' := List.mem_range.mp hj
      exact (slot_bounds (List.mem_map.mpr ⟨j, List.mem_range.mpr (by omega), rfl⟩)).1
    have hnew : page + slabDataOffset + k * slabSizes i ∉ ((List.range k).map
        fun k ↦ page + slabDataOffset + k * slabSizes i).reverse := by
      intro hx
      obtain ⟨j, hj, heq⟩ := List.mem_map.mp (List.mem_reverse.mp hx)
      have hj' := List.mem_range.mp hj
      have hjk := Nat.eq_of_mul_eq_mul_right (slabSizes_pos i) (Nat.add_left_cancel heq)
      omega
    have hpush := c.listed_pushNode hlist hge hb.1 hnew
    have hturn : cut page (slabSizes i) (left + 1) k c = cut page (slabSizes i) left (k + 1)
        (c.pushNode page (page + slabDataOffset + k * slabSizes i)) := rfl
    rw [hturn]
    have hrest := ih (k + 1) (c.pushNode page (page + slabDataOffset + k * slabSizes i))
      (by omega) ?_ ?_
    · refine ⟨hrest.1, hrest.2.1, fun b hslots h12 h24 ↦ ?_⟩
      rw [hrest.2.2 b hslots h12 h24]
      apply pushNode_of_ne _ _ h12 h24
      rintro rfl
      exact hslots hslot
    · rw [freeCount_pushNode _ (by omega), hcount, inc_eq (by omega)]
    · rw [freeList_pushNode, List.range_succ, List.map_append, List.reverse_append]
      exact hpush

/-- The header of a new page, before it is cut. -/
def Cells.newHeader (c : Cells) (page objSize total : Nat) : Cells :=
  ((((c.set page slabMagic).set (page + 4) objSize).set (page + 12) 0).set (page + 24) 0).set
    (page + 8) total

private theorem Cells.newSlab_spec (c : Cells) (i : Fin 8) (page : Nat) :
    (c.newSlab page (slabSizes i)).freeCount page = count i ∧
      Listed 0 (c.newSlab page (slabSizes i))
        ((c.newSlab page (slabSizes i)).freeList page) (slots i page).reverse ∧
      ∀ b, b ∉ slots i page → b ≠ page + 12 → b ≠ page + 24 →
        c.newSlab page (slabSizes i) b = c.newHeader page (slabSizes i) (count i) b := by
  refine cut_spec (count i) 0 (c.newHeader page (slabSizes i) (count i)) (Nat.zero_add _) ?_ ?_
  · rw [freeCount, newHeader, set_of_ne _ _ (by omega), set_of_ne _ _ (by omega), set_self]
  · rw [freeList, newHeader, set_of_ne _ _ (by omega), set_self]
    rfl

/-- A new slab page has a header, and all of its objects are free. -/
theorem Carved.new (c : Cells) {live : Nat → Option Nat} (i : Fin 8) (page : Nat)
    (hlive : ∀ x ∈ slots i page, live x = none) :
    Carved (c.newSlab page (slabSizes i)) live i page (slots i page).reverse := by
  obtain ⟨hcount, hlist, hkeep⟩ := c.newSlab_spec i page
  have hhead : ∀ b, b < page + 12 → c.newSlab page (slabSizes i) b =
      c.newHeader page (slabSizes i) (count i) b := fun b hb ↦
    hkeep b (fun hm ↦ by have hlow := (slot_bounds hm).1; omega) (by omega) (by omega)
  refine ⟨?_, ?_, ?_, ?_, hlist, List.nodup_reverse.mpr (nodup_slots i page), fun x ↦ ?_⟩
  · rw [Cells.magic, hhead _ (by omega), Cells.newHeader, Cells.set_of_ne _ _ (by omega),
      Cells.set_of_ne _ _ (by omega), Cells.set_of_ne _ _ (by omega),
      Cells.set_of_ne _ _ (by omega), Cells.set_self]
  · rw [Cells.objSize, hhead _ (by omega), Cells.newHeader, Cells.set_of_ne _ _ (by omega),
      Cells.set_of_ne _ _ (by omega), Cells.set_of_ne _ _ (by omega), Cells.set_self]
  · rw [Cells.total, hhead _ (by omega), Cells.newHeader, Cells.set_self]
  · rw [hcount, List.length_reverse, length_slots]
  · rw [List.mem_reverse]
    exact ⟨fun hx ↦ ⟨hx, hlive x hx⟩, fun hx ↦ hx.1⟩

/-! ## Other pages -/

namespace Cells

variable (c : Cells) {b : Nat}

/-- A new slab changes its page only. -/
theorem newSlab_elsewhere (i : Fin 8) (hpage : page % 4096 = 0) (hb : pgrounddown b ≠ page) :
    c.newSlab page (slabSizes i) b = c b := by
  have hne : ∀ d, d < 4096 → b ≠ page + d := by
    rintro d hd rfl
    apply hb
    unfold pgrounddown
    omega
  have hslot : b ∉ slots i page := fun hm ↦ hb (pgrounddown_slot hpage hm)
  rw [(c.newSlab_spec i page).2.2 b hslot (hne 12 (by decide)) (hne 24 (by decide)), newHeader,
    set_of_ne _ _ (hne 8 (by decide)), set_of_ne _ _ (hne 24 (by decide)),
    set_of_ne _ _ (hne 12 (by decide)), set_of_ne _ _ (hne 4 (by decide)),
    set_of_ne _ _ (by simpa using hne 0 (by decide))]

/-- Taking a node changes its page only. -/
theorem takeNode_elsewhere (hpage : page % 4096 = 0) (hb : pgrounddown b ≠ page) :
    c.takeNode page b = c b := by
  apply takeNode_of_ne
  · rintro rfl
    apply hb
    unfold pgrounddown
    omega
  · rintro rfl
    apply hb
    unfold pgrounddown
    omega

/-- Giving a node back changes its page only. -/
theorem giveNode_elsewhere {p : Nat} (hpage : page % 4096 = 0) (hp : p ∈ slots i page)
    (hsize : c.objSize page = slabSizes i) (hb : pgrounddown b ≠ page) :
    c.giveNode page p b = c b := by
  have hbounds := slot_bounds hp
  have hpos := slabSizes_pos i
  have hout : ∀ d, d < 4096 → b ≠ page + d := by
    rintro d hd rfl
    apply hb
    unfold pgrounddown
    omega
  have hlow : b < page ∨ page + 4096 ≤ b := by
    by_contra hin
    exact hout (b - page) (by omega) (by omega)
  rw [giveNode_eq, pushNode_of_ne _ (by omega) (hout 12 (by decide)) (hout 24 (by decide)),
    hsize, memset_of_not]
  omega

end Cells

/-- The tests of `kfree` let every object of a slab pass. -/
theorem Carved.kfreeIndex {c : Cells} {live : Nat → Option Nat} {l : List Nat} {z : Zone}
    (h : Carved c live i page l) (hmod : page % 4096 = 0) (hpage : z.manages (page / 4096))
    {p : Nat} (hp : p ∈ slots i page) : c.kfreeIndex z p = some i := by
  have hround := pgrounddown_slot hmod hp
  have hb := slot_bounds hp
  have hpos := slabSizes_pos i
  obtain ⟨k, _, hk⟩ := mem_slots.mp hp
  have hsub : p - page - slabDataOffset = k * slabSizes i := by
    rw [slabDataOffset_eq]
    omega
  unfold Cells.kfreeIndex
  dsimp only
  rw [hround, if_neg (not_not_intro hpage), if_neg (not_not_intro h.magic), h.objSize,
    slabBucketIndex_slabSizes]
  dsimp only
  rw [if_neg (not_not_intro rfl), if_neg]
  rw [hsub, Nat.mul_mod_left, slabDataOffset_eq]
  omega

end Xv6K210.Slab
