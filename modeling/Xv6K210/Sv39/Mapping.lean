import Xv6K210.Sv39.Table

/-!
# The map that a page table holds

The tables that `walk`, `mappages` and `uvmunmap` build are radix trees of three levels, in which no
page is used as two nodes. Their entries at the bottom are a map from page numbers: `mappages` adds
the pages of its range and `uvmunmap` takes those of its range away.
-/

namespace Xv6K210.Sv39

open Base Function

/-! ### Bits of addresses and entries -/

/-- The bits of a mask. -/
theorem bit_mask (k i : Nat) :
    (BitVec.ofNat 64 (2 ^ k - 1)).getLsbD i = (decide (i < 64) && decide (i < k)) := by
  rw [BitVec.getLsbD_ofNat, Nat.testBit_two_pow_sub_one]

private theorem bit_pgrounddown (a : BitVec 64) (i : Nat) :
    (pgrounddown a).getLsbD i = (a.getLsbD i && !decide (i < 12)) := by
  have hmask : pgsize - 1 = BitVec.ofNat 64 (2 ^ 12 - 1) := rfl
  rw [pgrounddown, hmask, BitVec.getLsbD_and, BitVec.getLsbD_not, bit_mask]
  by_cases hi : i < 64
  · rw [decide_eq_true hi, Bool.true_and, Bool.true_and]
  · rw [BitVec.getLsbD_of_ge a i (by omega), Bool.false_and, Bool.false_and]

private theorem bit_pteV (i : Nat) : pteV.getLsbD i = decide (i < 1) := by
  have h := bit_mask 1 i
  change pteV.getLsbD i = _ at h
  rw [h]
  by_cases hi : i < 1
  · rw [decide_eq_true hi, decide_eq_true (by omega), Bool.and_self]
  · rw [decide_eq_false hi, Bool.and_false]

private theorem bit_pteFlags (e : BitVec 64) (i : Nat) :
    (pteFlags e).getLsbD i = (e.getLsbD i && decide (i < 10)) := by
  have hmask : (0x3FF : BitVec 64) = BitVec.ofNat 64 (2 ^ 10 - 1) := rfl
  rw [pteFlags, hmask, BitVec.getLsbD_and, bit_mask]
  by_cases hi : i < 64
  · rw [decide_eq_true hi, Bool.true_and]
  · rw [BitVec.getLsbD_of_ge e i (by omega), Bool.false_and, Bool.false_and]

private theorem bit_pa2pte (pa : BitVec 64) (i : Nat) :
    (pa2pte pa).getLsbD i = (decide (10 ≤ i) && decide (i < 64) && pa.getLsbD (i + 2)) := by
  rw [pa2pte, BitVec.getLsbD_shiftLeft, BitVec.getLsbD_ushiftRight]
  by_cases hi : 10 ≤ i
  · rw [decide_eq_true hi, decide_eq_false (Nat.not_lt_of_le hi),
      show 12 + (i - 10) = i + 2 by omega]
    rw [Bool.not_false, Bool.true_and, Bool.and_true]
  · rw [decide_eq_false hi, decide_eq_true (Nat.lt_of_not_le hi)]
    simp only [Bool.not_true, Bool.and_false, Bool.false_and]

private theorem bit_pte2pa (e : BitVec 64) (i : Nat) :
    (pte2pa e).getLsbD i = (decide (12 ≤ i) && decide (i < 64) && e.getLsbD (i - 2)) := by
  rw [pte2pa, BitVec.getLsbD_shiftLeft, BitVec.getLsbD_ushiftRight]
  by_cases hi : 12 ≤ i
  · rw [decide_eq_true hi, decide_eq_false (Nat.not_lt_of_le hi),
      show 10 + (i - 12) = i - 2 by omega]
    rw [Bool.not_false, Bool.true_and, Bool.and_true]
  · rw [decide_eq_false hi, decide_eq_true (Nat.lt_of_not_le hi)]
    simp only [Bool.not_true, Bool.and_false, Bool.false_and]

/-- The page of an entry, with flags in its lower bits. -/
theorem pte2pa_entry (pa : BitVec 64) {flags : BitVec 64} (h : pteFlags flags = flags) :
    pte2pa (pa2pte pa ||| flags) = pgrounddown pa := by
  refine BitVec.eq_of_getLsbD_eq fun i hi ↦ ?_
  rw [bit_pte2pa, bit_pgrounddown, BitVec.getLsbD_or, bit_pa2pte, ← h, bit_pteFlags]
  by_cases hlow : 12 ≤ i
  · rw [decide_eq_true hlow, decide_eq_true hi, decide_eq_true (show 10 ≤ i - 2 by omega),
      decide_eq_true (show i - 2 < 64 by omega), decide_eq_false (show ¬ i - 2 < 10 by omega),
      decide_eq_false (show ¬ i < 12 by omega), show i - 2 + 2 = i by omega]
    simp only [Bool.true_and, Bool.and_false, Bool.or_false, Bool.not_false, Bool.and_true]
  · rw [decide_eq_false hlow, decide_eq_true (show i < 12 by omega)]
    simp only [Bool.false_and, Bool.not_true, Bool.and_false]

private theorem pteFlags_entry (pa : BitVec 64) {flags : BitVec 64} (h : pteFlags flags = flags) :
    pteFlags (pa2pte pa ||| flags) = flags := by
  refine BitVec.eq_of_getLsbD_eq fun i hi ↦ ?_
  rw [← h, bit_pteFlags, BitVec.getLsbD_or, bit_pa2pte, bit_pteFlags]
  by_cases hlow : i < 10
  · rw [decide_eq_true hlow, decide_eq_false (show ¬ 10 ≤ i by omega)]
    simp only [Bool.false_and, Bool.and_true, Bool.false_or]
  · rw [decide_eq_false hlow]
    simp only [Bool.and_false]

private theorem pteFlags_pteV : pteFlags pteV = pteV := rfl

private theorem valid_or (x : BitVec 64) : valid (x ||| pteV) = true := by
  rw [valid, decide_eq_true_iff]
  intro h
  have hbit : ((x ||| pteV) &&& pteV).getLsbD 0 = (0 : BitVec 64).getLsbD 0 := by rw [h]
  rw [BitVec.getLsbD_and, BitVec.getLsbD_or, bit_pteV] at hbit
  simp at hbit

/-- `PGROUNDDOWN`, as a number. -/
theorem toNat_pgrounddown (a : BitVec 64) : (pgrounddown a).toNat = a.toNat / 4096 * 4096 := by
  have h : pgrounddown a = (a >>> 12) <<< 12 := by
    refine BitVec.eq_of_getLsbD_eq fun i hi ↦ ?_
    rw [bit_pgrounddown, BitVec.getLsbD_shiftLeft, BitVec.getLsbD_ushiftRight, decide_eq_true hi,
      Bool.true_and, Bool.and_comm]
    by_cases hlow : i < 12
    · rw [decide_eq_true hlow]
      rfl
    · rw [show 12 + (i - 12) = i by omega]
  rw [h, BitVec.toNat_shiftLeft, BitVec.toNat_ushiftRight, Nat.shiftLeft_eq,
    Nat.shiftRight_eq_div_pow]
  have := a.isLt
  omega

private theorem px_eq (level : Nat) (va : BitVec 64) :
    px level va = va.toNat / 2 ^ (12 + 9 * level) % 512 := by
  rw [px, BitVec.toNat_and, BitVec.toNat_ushiftRight, Nat.shiftRight_eq_div_pow]
  exact Nat.and_two_pow_sub_one_eq_mod _ 9

/-! ### The tree -/

/-- The tree of a page table: level 2 is at its top. -/
def shape (pagetable : BitVec 64) : Radix (BitVec 64) Nat (BitVec 64) (BitVec 64) where
  root := pagetable
  digit va d := px (2 - d) va
  child pte := if valid pte then some (pte2pa pte) else none

/-- The valid entry of an address. -/
def leaf (pagetable : BitVec 64) (r : Ram) (va : BitVec 64) : Option (BitVec 64) :=
  ((shape pagetable).entry r.word 2 va).filter valid

/-- A page of the table itself. -/
def IsTable (pagetable : BitVec 64) (r : Ram) (p : BitVec 64) : Prop :=
  (shape pagetable).IsNode r.word 2 p

/-- No page is used as two nodes, and all nodes are in use. -/
structure Tree (pagetable : BitVec 64) (r : Ram) : Prop where
  separate : (shape pagetable).Separate r.word 2
  used : ∀ p, IsTable pagetable r p → r.quota p ≠ 0

variable {pagetable : BitVec 64} {r : Ram}

/-- What a page is before it is given out. -/
theorem kallocPage_some {p : BitVec 64} {r' : Ram} (h : kallocPage r = (some p, r')) :
    pgrounddown p = p ∧ r.quota p = 0 ∧ r'.quota = update r.quota p 1 ∧
      ∃ c, r'.word = update r.word p fun _ ↦ c := by
  rw [kallocPage] at h
  split at h
  · cases h
  · rename_i q answers _
    split at h
    · rename_i hfree
      cases h
      exact ⟨q.aligned, hfree, rfl, _, rfl⟩
    · cases h

private theorem kallocPage_none {r' : Ram} (h : kallocPage r = (none, r')) :
    r'.word = r.word ∧ r'.quota = r.quota := by
  rw [kallocPage] at h
  split at h
  · cases h
    exact ⟨rfl, rfl⟩
  · split at h
    · cases h
    · cases h
      exact ⟨rfl, rfl⟩

/-- A tree depends on the words and quotas only. -/
theorem Tree.congr {r' : Ram} (h : Tree pagetable r) (hword : r'.word = r.word)
    (hquota : r'.quota = r.quota) : Tree pagetable r' := by
  constructor
  · rw [hword]
    exact h.separate
  · intro p hp
    rw [hquota]
    rw [IsTable, hword] at hp
    exact h.used p hp

private theorem leaf_congr {r' : Ram} (hword : r'.word = r.word) (va : BitVec 64) :
    leaf pagetable r' va = leaf pagetable r va := by
  rw [leaf, leaf, hword]

/-- What `walk` leaves behind, and where it leads. -/
structure Walked (pagetable va : BitVec 64) (r : Ram) (o : Option Slot × Ram) : Prop where
  tree : Tree pagetable o.2
  leaf : ∀ va', leaf pagetable o.2 va' = leaf pagetable r va'
  slot : ∀ pte, o.1 = some pte →
    (shape pagetable).node o.2.word va 2 = some pte.page ∧ pte.index = px 0 va

private theorem node_next {va pt : BitVec 64} {level : Nat} (hlevel : level + 1 ≤ 2)
    (hnode : (shape pagetable).node r.word va (2 - (level + 1)) = some pt) :
    (shape pagetable).node r.word va (2 - level) =
      (shape pagetable).child (r.word pt (px (level + 1) va)) := by
  have hdepth : 2 - level = 2 - (level + 1) + 1 := by omega
  have hdigit : 2 - (2 - (level + 1)) = level + 1 := by omega
  rw [hdepth, Radix.node, hnode, Option.bind_some]
  change (shape pagetable).child (r.word pt (px (2 - (2 - (level + 1))) va)) = _
  rw [hdigit]

/-- A page is taken for a table that is missing. -/
theorem walk_links {va pt p : BitVec 64} {level : Nat} {r' : Ram} (hlevel : level + 1 ≤ 2)
    (htree : Tree pagetable r) (hnode : (shape pagetable).node r.word va (2 - (level + 1)) =
      some pt)
    (hinvalid : ¬ valid (r.word pt (px (level + 1) va)) = true)
    (halloc : kallocPage r = (some p, r')) :
    (shape pagetable).Links r.word 2 0 va (2 - (level + 1)) pt (pa2pte p ||| pteV) p := by
  obtain ⟨haligned, hfree, -, -⟩ := kallocPage_some halloc
  have hdigit : 2 - (2 - (level + 1)) = level + 1 := by omega
  refine ⟨by omega, hnode, ?_, fun h ↦ htree.used p h hfree, ?_, rfl⟩
  · change (if valid (r.word pt (px (2 - (2 - (level + 1))) va)) then _ else none) = none
    rw [hdigit, if_neg hinvalid]
  · change (if valid (pa2pte p ||| pteV) then some (pte2pa (pa2pte p ||| pteV)) else none) = some p
    rw [if_pos (valid_or _), pte2pa_entry p pteFlags_pteV, haligned]

private theorem walkFrom_alloc {va : BitVec 64} {level : Nat} (hlevel : level ≤ 2) {pt : BitVec 64}
    (htree : Tree pagetable r)
    (hnode : (shape pagetable).node r.word va (2 - level) = some pt) :
    Walked pagetable va r (walkFrom va true level pt r) := by
  induction level generalizing pt r with
  | zero =>
    refine ⟨htree, fun _ ↦ rfl, fun pte hpte ↦ ?_⟩
    cases hpte
    exact ⟨hnode, rfl⟩
  | succ level ih =>
    have hnext := node_next hlevel hnode
    rw [walkFrom]
    by_cases hvalid : valid (r.load ⟨pt, px (level + 1) va⟩) = true
    · rw [if_pos hvalid]
      refine ih (Nat.le_of_succ_le hlevel) htree (hnext.trans ?_)
      exact if_pos hvalid
    rw [if_neg hvalid, if_neg (by decide)]
    split
    next r' halloc =>
      obtain ⟨hword, hquota⟩ := kallocPage_none halloc
      exact ⟨htree.congr hword hquota, leaf_congr hword, fun pte hpte ↦ by cases hpte⟩
    next p r' halloc =>
      have hlinks := walk_links hlevel htree hnode hvalid halloc
      obtain ⟨-, -, hquota, c, hword⟩ := kallocPage_some halloc
      have hdigit : px (level + 1) va = (shape pagetable).digit va (2 - (level + 1)) :=
        congrArg (px · va) (show level + 1 = 2 - (2 - (level + 1)) by omega)
      have hword' : ((r'.memset p 0).store ⟨pt, px (level + 1) va⟩ (pa2pte p ||| pteV)).word =
          Radix.link r.word 0 pt ((shape pagetable).digit va (2 - (level + 1)))
            (pa2pte p ||| pteV) p := by
        change Radix.store (update r'.word p _) pt _ _ = _
        rw [hword, update_idem, hdigit]
        rfl
      have htree' : Tree pagetable
          ((r'.memset p 0).store ⟨pt, px (level + 1) va⟩ (pa2pte p ||| pteV)) := by
        constructor
        · rw [hword']
          exact hlinks.separate htree.separate
        · intro q hq
          rw [IsTable, hword'] at hq
          change r'.quota q ≠ 0
          rw [hquota]
          by_cases hqp : q = p
          · rw [hqp, update_self]
            decide
          · rw [update_of_ne hqp]
            exact htree.used q ((hlinks.isNode htree.separate hq).resolve_right hqp)
      have hnode' : (shape pagetable).node
          ((r'.memset p 0).store ⟨pt, px (level + 1) va⟩ (pa2pte p ||| pteV)).word va (2 - level) =
            some p := by
        classical
        rw [hword', hlinks.node_link htree.separate va (by omega),
          if_pos ⟨by omega, fun _ _ ↦ rfl⟩]
      have hwalked := ih (Nat.le_of_succ_le hlevel) htree' hnode'
      refine ⟨hwalked.tree, fun va' ↦ (hwalked.leaf va').trans ?_, hwalked.slot⟩
      rw [leaf, leaf, hword']
      exact hlinks.entry_link htree.separate (show valid 0 = false from rfl) va'

private theorem walkFrom_noalloc {va : BitVec 64} {level : Nat} (hlevel : level ≤ 2)
    {pt : BitVec 64}
    (hnode : (shape pagetable).node r.word va (2 - level) = some pt) :
    walkFrom va false level pt r =
      (((shape pagetable).node r.word va 2).map fun p ↦ ⟨p, px 0 va⟩, r) := by
  induction level generalizing pt with
  | zero =>
    rw [hnode]
    rfl
  | succ level ih =>
    have hnext := node_next hlevel hnode
    rw [walkFrom]
    by_cases hvalid : valid (r.load ⟨pt, px (level + 1) va⟩) = true
    · rw [if_pos hvalid]
      refine ih (Nat.le_of_succ_le hlevel) (hnext.trans ?_)
      exact if_pos hvalid
    · have hnone : (shape pagetable).node r.word va (2 - level) = none :=
        hnext.trans (if_neg hvalid)
      rw [if_neg hvalid, if_pos (by decide), Radix.node_none_mono hnone (by omega)]
      rfl

/-! ### Pages -/

/-- The number of the page of an address. -/
def vpn (va : BitVec 64) : Nat := va.toNat / 4096

/-- The digits of an address are those of its page. -/
theorem agree_iff {va va' : BitVec 64} (hva : va < maxva) (hva' : va' < maxva) :
    (shape pagetable).Agree 3 va va' ↔ vpn va = vpn va' := by
  have h : va.toNat < 0x4000000000 := hva
  have h' : va'.toNat < 0x4000000000 := hva'
  rw [Radix.agree_succ, Radix.agree_succ, Radix.agree_succ]
  change ((_ ∧ px 2 va = px 2 va') ∧ px 1 va = px 1 va') ∧ px 0 va = px 0 va' ↔ _
  rw [px_eq, px_eq, px_eq, px_eq, px_eq, px_eq, vpn, vpn]
  constructor
  · rintro ⟨⟨⟨-, h2⟩, h1⟩, h0⟩
    omega
  · intro heq
    refine ⟨⟨⟨fun e he ↦ absurd he (Nat.not_lt_zero e), ?_⟩, ?_⟩, ?_⟩
    · omega
    · omega
    · omega

private theorem leaf_slot {va : BitVec 64} {pte : Slot}
    (hnode : (shape pagetable).node r.word va 2 = some pte.page) (hindex : pte.index = px 0 va) :
    leaf pagetable r va = if valid (r.load pte) then some (r.load pte) else none := by
  rw [leaf, Radix.entry, hnode, Option.map_some, Ram.load, hindex]
  exact Option.filter_some

private theorem leaf_none {va : BitVec 64} (hnode : (shape pagetable).node r.word va 2 = none) :
    leaf pagetable r va = none := by
  rw [leaf, Radix.entry, hnode]
  rfl

/-- The addresses of a page have the same entry. -/
theorem leaf_page {va va' : BitVec 64} (hva : va < maxva) (hva' : va' < maxva)
    (h : vpn va = vpn va') : leaf pagetable r va = leaf pagetable r va' :=
  congrArg (Option.filter valid) (Radix.entry_agree ((agree_iff hva hva').mpr h))

/-- Without allocation `walk` leads to the entry, and changes nothing. -/
theorem walk_noalloc {va : BitVec 64} (hva : va < maxva) : walk pagetable va false r =
    some (((shape pagetable).node r.word va 2).map fun p ↦ ⟨p, px 0 va⟩, r) := by
  have hroot : (shape pagetable).node r.word va (2 - 2) = some pagetable := rfl
  rw [walk, if_neg (BitVec.not_le.mpr hva), walkFrom_noalloc (Nat.le_refl 2) hroot]

/-- `walk` reads the leaf of the tree. -/
theorem lookup_eq {va : BitVec 64} (hva : va < maxva) :
    lookup pagetable va r = leaf pagetable r va := by
  rw [lookup, walk_noalloc hva]
  cases hnode : (shape pagetable).node r.word va 2 with
  | none => exact (leaf_none hnode).symm
  | some p =>
    have hpage : (shape pagetable).node r.word va 2 = some (Slot.mk p (px 0 va)).page := hnode
    exact (leaf_slot hpage rfl).symm

/-- `walkaddr` reads the map, of which it shows the pages of the user. -/
theorem walkaddr_eq {va : BitVec 64} (hva : va < maxuva) : walkaddr pagetable va r =
    some (((lookup pagetable va r).filter fun e ↦ e &&& pteU ≠ 0).elim 0 pte2pa) := by
  have hlt : va < maxva := by
    rw [BitVec.lt_def] at hva ⊢
    exact Nat.lt_trans hva (by decide)
  rw [walkaddr, if_neg (BitVec.not_le.mpr hva), lookup, walk_noalloc hlt]
  cases (shape pagetable).node r.word va 2 with
  | none => rfl
  | some p =>
    dsimp only [Option.map_some]
    by_cases hvalid : valid (r.load ⟨p, px 0 va⟩) = true
    · rw [hvalid, if_neg (by decide), if_pos rfl, Option.filter_some]
      by_cases huser : r.load ⟨p, px 0 va⟩ &&& pteU = 0
      · rw [if_pos huser, if_neg (by rw [decide_eq_true_iff]; exact fun h ↦ h huser)]
        rfl
      · rw [if_neg huser, if_pos (decide_eq_true huser)]
        rfl
    · rw [Bool.eq_false_iff.mpr hvalid, if_pos (by decide), if_neg Bool.false_ne_true]
      rfl

/-- The slot that `walk` leads to. -/
def leafSlot (pagetable va : BitVec 64) (r : Ram) : Option Slot :=
    (walk pagetable va false r).bind (·.1)

private theorem leafSlot_eq {va : BitVec 64} (hva : va < maxva) : leafSlot pagetable va r =
    ((shape pagetable).node r.word va 2).map fun p ↦ ⟨p, px 0 va⟩ := by
  rw [leafSlot, walk_noalloc hva]
  rfl

/-- Two pages do not share a slot. -/
theorem Tree.slot_inj (h : Tree pagetable r) {va va' : BitVec 64} (hva : va < maxva)
    (hva' : va' < maxva) {pte : Slot} (hslot : leafSlot pagetable va r = some pte)
    (hslot' : leafSlot pagetable va' r = some pte) : vpn va = vpn va' := by
  rw [leafSlot_eq hva] at hslot
  rw [leafSlot_eq hva'] at hslot'
  obtain ⟨p, hp, rfl⟩ := Option.map_eq_some_iff.mp hslot
  obtain ⟨p', hp', heq⟩ := Option.map_eq_some_iff.mp hslot'
  obtain ⟨rfl, hindex⟩ := Slot.mk.inj heq
  exact (agree_iff hva hva').mp (h.separate.agree hp hp' hindex.symm)

/-- A write into a slot. -/
theorem Tree.store (h : Tree pagetable r) {va : BitVec 64} (hva : va < maxva) {pte : Slot}
    (hnode : (shape pagetable).node r.word va 2 = some pte.page) (hindex : pte.index = px 0 va)
    (e : BitVec 64) : Tree pagetable (r.store pte e) ∧ ∀ va' < maxva,
      leaf pagetable (r.store pte e) va' =
        if vpn va = vpn va' then (if valid e then some e else none) else leaf pagetable r va' := by
  classical
  have hnodes : ∀ k d, d ≤ 2 → (shape pagetable).node (r.store pte e).word k d =
      (shape pagetable).node r.word k d := fun k d hd ↦ h.separate.node_store hnode _ e k hd
  refine ⟨⟨h.separate.of_node_eq hnodes, fun p hp ↦ ?_⟩, fun va' hva' ↦ ?_⟩
  · exact h.used p ((Radix.isNode_of_node_eq hnodes).mp hp)
  · have hentry := h.separate.entry_store hnode e va'
    have hword : (r.store pte e).word =
        Radix.store r.word pte.page ((shape pagetable).digit va 2) e := by
      rw [Ram.store, hindex]
      rfl
    rw [leaf, hword, hentry]
    by_cases hpage : vpn va = vpn va'
    · rw [if_pos hpage, if_pos ((agree_iff hva hva').mpr hpage)]
      exact Option.filter_some
    · rw [if_neg hpage, if_neg (fun hagree ↦ hpage ((agree_iff hva hva').mp hagree))]
      rfl

private theorem Tree.isTable_store (h : Tree pagetable r) {va : BitVec 64} {pte : Slot}
    (hnode : (shape pagetable).node r.word va 2 = some pte.page) (e p : BitVec 64) :
    IsTable pagetable (r.store pte e) p ↔ IsTable pagetable r p :=
  Radix.isNode_of_node_eq fun k _ hd ↦ h.separate.node_store hnode _ e k hd

/-! ### `mappages` -/

private theorem walk_alloc (h : Tree pagetable r) {va : BitVec 64} (hva : va < maxva) :
    ∃ o, walk pagetable va true r = some o ∧ Walked pagetable va r o :=
  ⟨_, if_neg (BitVec.not_le.mpr hva), walkFrom_alloc (Nat.le_refl 2) h rfl⟩

private theorem mappagesPage_tree {a pa perm : BitVec 64} {o : Bool × Ram} (h : Tree pagetable r)
    (ho : mappagesPage pagetable a pa perm r = some o) : Tree pagetable o.2 := by
  have ha := mappagesPage_lt ho
  obtain ⟨⟨slot, r'⟩, hwalk, hwalked⟩ := walk_alloc h ha
  rw [mappagesPage, hwalk] at ho
  cases slot with
  | none =>
    cases ho
    exact hwalked.tree
  | some pte =>
    obtain ⟨hnode, hindex⟩ := hwalked.slot pte rfl
    dsimp only at ho
    split at ho
    · cases ho
    · cases ho
      exact (hwalked.tree.store ha hnode hindex _).1

/-- A round of `mappages` on a page that is not mapped. -/
theorem mappagesPage_maps {a : BitVec 64} (h : Tree pagetable r) (ha : a < maxva)
    (hnone : leaf pagetable r a = none) (pa perm : BitVec 64) :
    ∃ b r', mappagesPage pagetable a pa perm r = some (b, r') ∧ Tree pagetable r' ∧
      ∀ va' < maxva, leaf pagetable r' va' =
        if b = true ∧ vpn a = vpn va' then some (pa2pte pa ||| perm ||| pteV)
        else leaf pagetable r va' := by
  obtain ⟨⟨slot, r1⟩, hwalk, hwalked⟩ := walk_alloc h ha
  rw [mappagesPage, hwalk]
  cases slot with
  | none =>
    refine ⟨false, r1, rfl, hwalked.tree, fun va' _ ↦ ?_⟩
    rw [if_neg (fun h ↦ Bool.false_ne_true h.1)]
    exact hwalked.leaf va'
  | some pte =>
    obtain ⟨hnode, hindex⟩ := hwalked.slot pte rfl
    have hinvalid : ¬ valid (r1.load pte) = true := by
      intro hvalid
      have hleaf := leaf_slot hnode hindex
      rw [if_pos hvalid, hwalked.leaf a, hnone] at hleaf
      cases hleaf
    obtain ⟨htree, hleaf⟩ := hwalked.tree.store ha hnode hindex (pa2pte pa ||| perm ||| pteV)
    refine ⟨true, _, if_neg hinvalid, htree, fun va' hva' ↦ ?_⟩
    rw [hleaf va' hva', if_pos (valid_or _), hwalked.leaf va']
    simp only [true_and]

/-- The loop of `mappages` leaves a tree. -/
theorem mappagesLoop_tree {last perm a pa : BitVec 64} {o : Int × Ram} (h : Tree pagetable r)
    (ho : mappagesLoop pagetable last perm a pa r = some o) : Tree pagetable o.2 := by
  induction a, pa, r using mappagesLoop.induct pagetable last perm with
  | case1 a pa r hpage =>
    rw [mappagesLoop, hpage] at ho
    cases ho
  | case2 a pa r r' hpage =>
    rw [mappagesLoop, hpage] at ho
    cases ho
    exact mappagesPage_tree h hpage
  | case3 pa r r' hpage =>
    rw [mappagesLoop, hpage] at ho
    dsimp only at ho
    rw [if_pos rfl] at ho
    cases ho
    exact mappagesPage_tree h hpage
  | case4 a pa r r' hpage hlast ih =>
    rw [mappagesLoop, hpage] at ho
    dsimp only at ho
    rw [if_neg hlast] at ho
    exact ih (mappagesPage_tree h hpage) ho

private theorem vpn_next {a : BitVec 64} (ha : a < maxva) :
    (a + pgsize).toNat = a.toNat + 4096 ∧ vpn (a + pgsize) = vpn a + 1 := by
  have hlt : a.toNat < 0x4000000000 := ha
  have hnext : (a + pgsize).toNat = a.toNat + 4096 := by
    rw [BitVec.toNat_add]
    exact Nat.mod_eq_of_lt (show a.toNat + 4096 < 2 ^ 64 by omega)
  rw [vpn, vpn, hnext]
  omega

/-- The entry of the page that is `k` pages behind the first one. -/
def mapped (pa perm : BitVec 64) (k : Nat) : BitVec 64 :=
  pa2pte (pa + BitVec.ofNat 64 (k * 4096)) ||| perm ||| pteV

private theorem mapped_succ (pa perm : BitVec 64) (k : Nat) :
    mapped (pa + pgsize) perm k = mapped pa perm (k + 1) := by
  have hpage : pgsize = BitVec.ofNat 64 4096 := rfl
  rw [mapped, mapped, hpage, BitVec.add_assoc, ← BitVec.ofNat_add, Nat.add_comm, Nat.succ_mul]

private theorem mapped_zero (pa perm : BitVec 64) :
    mapped pa perm 0 = pa2pte pa ||| perm ||| pteV := by
  rw [mapped, Nat.zero_mul, BitVec.add_zero]

/-- The loop of `mappages` over `c + 1` pages that are not mapped. -/
theorem mappagesLoop_maps {last : BitVec 64} (hlast : last < maxva) (perm : BitVec 64) {c : Nat}
    {a : BitVec 64} (pa : BitVec 64) (h : Tree pagetable r)
      (hcount : a.toNat + c * 4096 = last.toNat)
    (hnone : ∀ va < maxva, vpn a ≤ vpn va → vpn va ≤ vpn last → leaf pagetable r va = none) :
    ∃ ret r' m, mappagesLoop pagetable last perm a pa r = some (ret, r') ∧
      ((ret = 0 ∧ m = c + 1) ∨ (ret = -1 ∧ m ≤ c)) ∧ ∀ va < maxva, leaf pagetable r' va =
        if vpn a ≤ vpn va ∧ vpn va < vpn a + m then some (mapped pa perm (vpn va - vpn a))
        else leaf pagetable r va := by
  have hlt : last.toNat < 0x4000000000 := hlast
  induction c generalizing a pa r with
  | zero =>
    obtain rfl : a = last := BitVec.eq_of_toNat_eq (by omega)
    obtain ⟨b, r', hpage, -, hleaf⟩ := mappagesPage_maps h hlast
      (hnone a hlast (Nat.le_refl _) (Nat.le_refl _)) pa perm
    rw [mappagesLoop, hpage]
    cases b with
    | false =>
      refine ⟨-1, r', 0, rfl, .inr ⟨rfl, Nat.le_refl 0⟩, fun va hva ↦ ?_⟩
      rw [hleaf va hva, if_neg (fun h ↦ Bool.false_ne_true h.1), if_neg (by omega)]
    | true =>
      refine ⟨0, r', 1, if_pos rfl, .inl ⟨rfl, rfl⟩, fun va hva ↦ ?_⟩
      rw [hleaf va hva]
      by_cases heq : vpn a = vpn va
      · rw [if_pos ⟨rfl, heq⟩, if_pos (by omega), heq, Nat.sub_self, mapped_zero]
      · rw [if_neg (fun h ↦ heq h.2), if_neg (by omega)]
  | succ c ih =>
    have ha : a < maxva := show a.toNat < 0x4000000000 by omega
    obtain ⟨hnat, hvpn⟩ := vpn_next ha
    have hne : a ≠ last := by
      rintro rfl
      omega
    have hbefore : vpn a ≤ vpn last := Nat.div_le_div_right (by omega)
    obtain ⟨b, r1, hpage, htree, hleaf⟩ := mappagesPage_maps h ha
      (hnone a ha (Nat.le_refl _) hbefore) pa perm
    rw [mappagesLoop, hpage]
    cases b with
    | false =>
      refine ⟨-1, r1, 0, rfl, .inr ⟨rfl, Nat.zero_le _⟩, fun va hva ↦ ?_⟩
      rw [hleaf va hva, if_neg (fun h ↦ Bool.false_ne_true h.1), if_neg (by omega)]
    | true =>
      have hnone' : ∀ va < maxva, vpn (a + pgsize) ≤ vpn va → vpn va ≤ vpn last →
          leaf pagetable r1 va = none := by
        intro va hva hfirst hle
        rw [hleaf va hva, if_neg (by omega)]
        exact hnone va hva (by omega) hle
      obtain ⟨ret, r', m, hloop, hm, hrest⟩ := ih (pa + pgsize) htree (by omega) hnone'
      refine ⟨ret, r', m + 1, ?_, ?_, fun va hva ↦ ?_⟩
      · dsimp only
        rw [if_neg hne]
        exact hloop
      · rcases hm with ⟨hret, rfl⟩ | ⟨hret, hle⟩
        · exact .inl ⟨hret, rfl⟩
        · exact .inr ⟨hret, Nat.succ_le_succ hle⟩
      · rw [hrest va hva, hleaf va hva]
        by_cases hin : vpn (a + pgsize) ≤ vpn va ∧ vpn va < vpn (a + pgsize) + m
        · have hdiff : vpn va - vpn a = vpn va - vpn (a + pgsize) + 1 := by omega
          rw [if_pos hin, if_pos (by omega), mapped_succ, hdiff]
        · rw [if_neg hin]
          by_cases heq : vpn a = vpn va
          · rw [if_pos ⟨rfl, heq⟩, if_pos (by omega), heq, Nat.sub_self, mapped_zero]
          · rw [if_neg (fun h ↦ heq h.2), if_neg (by omega)]

/-! ### `uvmunmap` -/

/-- An entry that `uvmunmap` can take away: it has a permission, and its page, if it is to be freed,
is one that the allocator gave out. -/
def Unmappable (kend : BitVec 64) (doFree : Bool) (e : BitVec 64) : Prop :=
  pteFlags e ≠ pteV ∧ (doFree = true → kend ≤ pte2pa e ∧ pte2pa e < phystop)

private theorem pte2pa_aligned (e : BitVec 64) : pte2pa e % pgsize = 0 := by
  refine BitVec.eq_of_toNat_eq ?_
  rw [BitVec.toNat_umod, pte2pa, BitVec.toNat_shiftLeft, Nat.shiftLeft_eq]
  change (e >>> 10).toNat * 4096 % 18446744073709551616 % 4096 = 0
  omega

/-- What `kfree_page` changes. -/
theorem kfreePage_frame {pa : BitVec 64} {r' : Ram} (h : kfreePage pa r = some r') :
    r'.kend = r.kend ∧ ∀ p, p ≠ pa → r'.word p = r.word p ∧ r'.quota p = r.quota p := by
  rw [kfreePage] at h
  split at h
  · cases h
  · dsimp only at h
    split at h
    · cases h
      exact ⟨rfl, fun p hp ↦ ⟨rfl, update_of_ne hp _ _⟩⟩
    · cases h
      exact ⟨rfl, fun p hp ↦ ⟨update_of_ne hp _ _, update_of_ne hp _ _⟩⟩

private theorem kfreePage_isSome (r : Ram) (e : BitVec 64) :
    (kfreePage (pte2pa e) r).isSome = true ↔ r.kend ≤ pte2pa e ∧ pte2pa e < phystop := by
  have hcond : (pte2pa e % pgsize ≠ 0 ∨ pte2pa e < r.kend ∨ phystop ≤ pte2pa e) ↔
      ¬ (r.kend ≤ pte2pa e ∧ pte2pa e < phystop) := by
    rw [not_and_or, BitVec.not_le, BitVec.not_lt]
    exact or_iff_right (fun h ↦ h (pte2pa_aligned e))
  rw [kfreePage]
  by_cases hin : r.kend ≤ pte2pa e ∧ pte2pa e < phystop
  · rw [if_neg (fun h ↦ hcond.mp h hin)]
    dsimp only
    split
    · exact ⟨fun _ ↦ hin, fun _ ↦ rfl⟩
    · exact ⟨fun _ ↦ hin, fun _ ↦ rfl⟩
  · rw [if_pos (hcond.mpr hin)]
    exact ⟨fun h ↦ absurd h Bool.false_ne_true, fun h ↦ absurd h hin⟩

/-- Changes outside of a table. -/
theorem Tree.frame (h : Tree pagetable r) {r' : Ram}
    (hframe : ∀ p, IsTable pagetable r p → r'.word p = r.word p ∧ r'.quota p ≠ 0) :
    Tree pagetable r' ∧ (∀ va, leaf pagetable r' va = leaf pagetable r va) ∧
      (∀ k, (shape pagetable).node r'.word k 2 = (shape pagetable).node r.word k 2) ∧
      ∀ p, IsTable pagetable r' p ↔ IsTable pagetable r p := by
  have hword : ∀ p, (shape pagetable).IsNode r.word 2 p → r'.word p = r.word p :=
    fun p hp ↦ (hframe p hp).1
  have hnodes : ∀ k d, d ≤ 2 → (shape pagetable).node r'.word k d =
      (shape pagetable).node r.word k d := fun k d hd ↦ Radix.node_frame hword k hd
  refine ⟨⟨h.separate.of_node_eq hnodes, fun p hp ↦ ?_⟩, fun va ↦ ?_,
    fun k ↦ hnodes k 2 (Nat.le_refl 2), fun p ↦ Radix.isNode_of_node_eq hnodes⟩
  · exact (hframe p ((Radix.isNode_of_node_eq hnodes).mp hp)).2
  · rw [leaf, leaf, Radix.entry_frame hword]

/-- What is freed with a page is not a page of the table. -/
def Foreign (pagetable : BitVec 64) (r : Ram) (doFree : Bool) (e : BitVec 64) : Prop :=
  doFree = true → ¬ IsTable pagetable r (pte2pa e)

/-- A page is freed, or not, before its entry is cleared. -/
theorem Tree.clear (h : Tree pagetable r) {a : BitVec 64} (ha : a < maxva) {pte : Slot}
    (hnode : (shape pagetable).node r.word a 2 = some pte.page) (hindex : pte.index = px 0 a)
    {doFree : Bool} {e : BitVec 64} (hforeign : Foreign pagetable r doFree e) {r1 : Ram}
    (hfree : (if doFree then kfreePage (pte2pa e) r else some r) = some r1) :
    Tree pagetable (r1.store pte 0) ∧ r1.kend = r.kend ∧
      (∀ p, IsTable pagetable (r1.store pte 0) p ↔ IsTable pagetable r p) ∧
      ∀ va < maxva, leaf pagetable (r1.store pte 0) va =
        if vpn a = vpn va then none else leaf pagetable r va := by
  have hframe : r1.kend = r.kend ∧
      ∀ p, IsTable pagetable r p → r1.word p = r.word p ∧ r1.quota p = r.quota p := by
    cases doFree with
    | false =>
      cases hfree
      exact ⟨rfl, fun _ _ ↦ ⟨rfl, rfl⟩⟩
    | true =>
      rw [if_pos rfl] at hfree
      obtain ⟨hkend, hsame⟩ := kfreePage_frame hfree
      exact ⟨hkend, fun p hp ↦ hsame p fun heq ↦ hforeign rfl (heq ▸ hp)⟩
  obtain ⟨hkend, hsame⟩ := hframe
  obtain ⟨htree, hleaf, hnodes, htable⟩ := h.frame fun p hp ↦
    ⟨(hsame p hp).1, fun hzero ↦ h.used p hp ((hsame p hp).2.symm.trans hzero)⟩
  have hnode' := (hnodes a).trans hnode
  obtain ⟨htree', hleaf'⟩ := htree.store ha hnode' hindex 0
  refine ⟨htree', hkend, fun p ↦ (htree.isTable_store hnode' 0 p).trans (htable p),
    fun va hva ↦ ?_⟩
  rw [hleaf' va hva, hleaf va]
  rfl

/-- A round of `uvmunmap` takes the entry of its page away. -/
theorem uvmunmapPage_unmaps {a : BitVec 64} {doFree : Bool} (h : Tree pagetable r) (ha : a < maxva)
    (hforeign : ∀ e, leaf pagetable r a = some e → Foreign pagetable r doFree e) :
    ((∃ r', uvmunmapPage pagetable a doFree r = some r') ↔
      ∀ e, leaf pagetable r a = some e → Unmappable r.kend doFree e) ∧
    ∀ r', uvmunmapPage pagetable a doFree r = some r' → Tree pagetable r' ∧ r'.kend = r.kend ∧
      (∀ p, IsTable pagetable r' p ↔ IsTable pagetable r p) ∧
      ∀ va < maxva, leaf pagetable r' va = if vpn a = vpn va then none else leaf pagetable r
        va := by
  have hkeep : leaf pagetable r a = none → ∀ va < maxva,
      leaf pagetable r va = if vpn a = vpn va then none else leaf pagetable r va := by
    intro hnone va hva
    by_cases hpage : vpn a = vpn va
    · rw [if_pos hpage, ← hnone]
      exact leaf_page hva ha hpage.symm
    · rw [if_neg hpage]
  rw [uvmunmapPage, walk_noalloc ha]
  cases hnode : (shape pagetable).node r.word a 2 with
  | none =>
    have hnone := leaf_none hnode
    refine ⟨⟨fun _ e he ↦ ?_, fun _ ↦ ⟨r, rfl⟩⟩, fun r' hr' ↦ ?_⟩
    · rw [hnone] at he
      cases he
    · cases hr'
      exact ⟨h, rfl, fun _ ↦ Iff.rfl, hkeep hnone⟩
  | some p =>
    have hpage : (shape pagetable).node r.word a 2 = some (Slot.mk p (px 0 a)).page := hnode
    have hleaf := leaf_slot hpage rfl
    dsimp only [Option.map_some]
    by_cases hvalid : valid (r.load ⟨p, px 0 a⟩) = true
    · rw [if_pos hvalid] at hleaf
      rw [if_neg (by rw [hvalid]; decide)]
      by_cases hbare : pteFlags (r.load ⟨p, px 0 a⟩) = pteV
      · rw [if_pos hbare]
        refine ⟨⟨fun hex ↦ ?_, fun h ↦ absurd hbare (h _ hleaf).1⟩, fun r' hr' ↦ by cases hr'⟩
        obtain ⟨_, hnone⟩ := hex
        cases hnone
      · rw [if_neg hbare]
        refine ⟨?_, fun r' hr' ↦ ?_⟩
        · have hentry : (∀ e, leaf pagetable r a = some e → Unmappable r.kend doFree e) ↔
              Unmappable r.kend doFree (r.load ⟨p, px 0 a⟩) := by
            constructor
            · exact fun h ↦ h _ hleaf
            · intro h e he
              rw [hleaf] at he
              cases he
              exact h
          rw [hentry, Unmappable]
          cases doFree with
          | false => exact ⟨fun _ ↦ ⟨hbare, fun h ↦ absurd h Bool.false_ne_true⟩, fun _ ↦ ⟨_, rfl⟩⟩
          | true =>
            have hsome := kfreePage_isSome r (r.load ⟨p, px 0 a⟩)
            rw [if_pos rfl, ← Option.isSome_iff_exists, Option.isSome_map, hsome]
            exact ⟨fun h ↦ ⟨hbare, fun _ ↦ h⟩, fun h ↦ h.2 rfl⟩
        · obtain ⟨r1, hfree, rfl⟩ := Option.map_eq_some_iff.mp hr'
          exact h.clear ha hpage rfl (hforeign _ hleaf) hfree
    · rw [if_neg hvalid] at hleaf
      rw [if_pos (by rw [Bool.eq_false_iff.mpr hvalid]; rfl)]
      refine ⟨⟨fun _ e he ↦ ?_, fun _ ↦ ⟨r, rfl⟩⟩, fun r' hr' ↦ ?_⟩
      · rw [hleaf] at he
        cases he
      · cases hr'
        exact ⟨h, rfl, fun _ ↦ Iff.rfl, hkeep hleaf⟩

/-- The loop of `uvmunmap` over `c` pages. -/
theorem uvmunmapLoop_unmaps {fin : BitVec 64} {doFree : Bool} {c : Nat} {a : BitVec 64}
    (h : Tree pagetable r) (haligned : a.toNat % 4096 = 0) (hfin : fin.toNat % 4096 = 0)
    (hcount : fin.toNat - a.toNat = c * 4096)
    (hforeign : ∀ va < maxva, a ≤ va → va < fin → ∀ e, leaf pagetable r va = some e →
      Foreign pagetable r doFree e) :
    ((∃ r', uvmunmapLoop pagetable fin doFree a r = some r') ↔ (a < fin → fin ≤ maxva) ∧
      ∀ va < maxva, a ≤ va → va < fin → ∀ e, leaf pagetable r va = some e →
        Unmappable r.kend doFree e) ∧
    ∀ r', uvmunmapLoop pagetable fin doFree a r = some r' → Tree pagetable r' ∧
      ∀ va < maxva, leaf pagetable r' va =
        if a ≤ va ∧ va < fin then none else leaf pagetable r va := by
  simp only [BitVec.le_def, BitVec.lt_def] at *
  have hmax : maxva.toNat = 0x4000000000 := rfl
  induction c generalizing a r with
  | zero =>
    have hend : ¬ a < fin := by
      rw [BitVec.lt_def]
      omega
    rw [uvmunmapLoop, if_neg hend]
    refine ⟨⟨fun _ ↦ ⟨fun _ ↦ by omega, fun va _ _ _ ↦ by omega⟩, fun _ ↦ ⟨r, rfl⟩⟩,
      fun r' hr' ↦ ?_⟩
    cases hr'
    refine ⟨h, fun va _ ↦ ?_⟩
    rw [if_neg (by omega)]
  | succ c ih =>
    have hlt : a < fin := by
      rw [BitVec.lt_def]
      omega
    rw [uvmunmapLoop, if_pos hlt]
    by_cases ha : a < maxva
    · have hnat : a.toNat < maxva.toNat := ha
      obtain ⟨hnext, -⟩ := vpn_next ha
      -- the addresses from `a` on are in the first page, or in those behind it
      have hpage : ∀ va :
        BitVec 64, vpn a = vpn va ↔ a.toNat ≤ va.toNat ∧ va.toNat < a.toNat + 4096 := by
        intro va
        rw [vpn, vpn]
        omega
      obtain ⟨hround, hstep⟩ := uvmunmapPage_unmaps h ha (hforeign a hnat (Nat.le_refl _) hlt)
      split
      next hnone =>
        refine ⟨⟨fun hex ↦ ?_, fun hall ↦ ?_⟩, fun r' hr' ↦ by cases hr'⟩
        · obtain ⟨_, hr'⟩ := hex
          cases hr'
        · obtain ⟨r', hr'⟩ := hround.mpr (hall.2 a hnat (Nat.le_refl _) hlt)
          rw [hnone] at hr'
          cases hr'
      next r1 hr1 =>
        obtain ⟨htree, hkend, htable, hleaf⟩ := hstep r1 hr1
        have hfirst := hround.mp ⟨r1, hr1⟩
        have hafter : ∀ va : BitVec 64, va.toNat < maxva.toNat → (a + pgsize).toNat ≤ va.toNat →
            leaf pagetable r1 va = leaf pagetable r va := by
          intro va hva hle
          rw [hleaf va hva, if_neg (by rw [hpage]; omega)]
        obtain ⟨hiff, hrest⟩ :=
          ih htree (by omega) (by omega) fun va hva hle hvafin e he hfree htab ↦
          hforeign va hva (by omega) hvafin e ((hafter va hva hle).symm.trans he) hfree
            ((htable _).mp htab)
        refine ⟨hiff.trans ⟨?_, ?_⟩, fun r' hr' ↦ ?_⟩
        · rintro ⟨hend, hall⟩
          refine ⟨fun _ ↦ by omega, fun va hva hle hvafin e he ↦ ?_⟩
          by_cases hsame : vpn a = vpn va
          · exact hfirst e ((leaf_page ha hva hsame).trans he)
          · have hle' : (a + pgsize).toNat ≤ va.toNat := by
              rw [hpage] at hsame
              omega
            rw [← hkend]
            exact hall va hva hle' hvafin e ((hafter va hva hle').trans he)
        · rintro ⟨hend, hall⟩
          refine ⟨fun _ ↦ hend (by omega), fun va hva hle hvafin e he ↦ ?_⟩
          rw [hkend]
          exact hall va hva (by omega) hvafin e ((hafter va hva hle).symm.trans he)
        · obtain ⟨htree', hleaf'⟩ := hrest r' hr'
          refine ⟨htree', fun va hva ↦ ?_⟩
          rw [hleaf' va hva, hleaf va hva]
          by_cases hin : (a + pgsize).toNat ≤ va.toNat ∧ va.toNat < fin.toNat
          · rw [if_pos hin, if_pos (by omega)]
          · rw [if_neg hin]
            by_cases hsame : vpn a = vpn va
            · rw [if_pos hsame, if_pos]
              rw [hpage] at hsame
              omega
            · rw [if_neg hsame, if_neg]
              rw [hpage] at hsame
              omega
    · have hnone : uvmunmapPage pagetable a doFree r = none := by
        rw [uvmunmapPage, walk, if_pos (BitVec.not_lt.mp ha)]
      have hge : maxva.toNat ≤ a.toNat := BitVec.not_lt.mp ha
      split
      next =>
        refine ⟨⟨fun hex ↦ ?_, fun hall ↦ ?_⟩, fun r' hr' ↦ by cases hr'⟩
        · obtain ⟨_, hr'⟩ := hex
          cases hr'
        · have := hall.1 hlt
          omega
      next r1 hr1 =>
        rw [hnone] at hr1
        cases hr1

/-! ### Runs -/

/-- The tables that `uvmcreate`, `walk`, `mappages` and `uvmunmap` build, with anything in between
that leaves the pages of the table alone. A page that is freed is not one of the table. -/
inductive Built : BitVec 64 → Ram → Prop
  | create {r r' : Ram} {p : BitVec 64} : uvmcreate r = (some p, r') → Built p r'
  | walk {pagetable va : BitVec 64} {r : Ram} {o : Option Slot × Ram} : Built pagetable r →
    walk pagetable va true r = some o → Built pagetable o.2
  | mappages {pagetable va size pa perm : BitVec 64} {r : Ram} {o : Int × Ram} :
    Built pagetable r → mappages pagetable va size pa perm r = some o → Built pagetable o.2
  | uvmunmap {pagetable va npages : BitVec 64} {doFree : Bool} {r r' : Ram} : Built pagetable r →
    (∀ va' < maxva, va ≤ va' → va' < va + npages * pgsize → ∀ e, lookup pagetable va' r = some e →
      Foreign pagetable r doFree e) →
    uvmunmap pagetable va npages doFree r = some r' → Built pagetable r'
  | other {pagetable : BitVec 64} {r r' : Ram} : Built pagetable r →
    (∀ p, IsTable pagetable r p → r'.word p = r.word p ∧ r'.quota p ≠ 0) → Built pagetable r'

/-- `uvmcreate` makes a tree without leaves. -/
theorem uvmcreate_tree {r' : Ram} {p : BitVec 64} (h : uvmcreate r = (some p, r')) :
    Tree p r' ∧ ∀ va, leaf p r' va = none := by
  rw [uvmcreate] at h
  split at h
  · cases h
  next q r1 halloc =>
    cases h
    obtain ⟨-, -, hquota, -⟩ := kallocPage_some halloc
    have hnode : ∀ k d, (shape p).node (r1.memset p 0).word k (d + 1) = none := by
      intro k d
      refine Radix.node_none_mono (d := 1) ?_ (Nat.succ_le_succ (Nat.zero_le d))
      change (shape p).child (update r1.word p (fun _ ↦ 0) p _) = none
      rw [update_self]
      rfl
    have hroot : ∀ k d q, (shape p).node (r1.memset p 0).word k d = some q → d = 0 ∧ q = p := by
      intro k d q hq
      cases d with
      | zero => exact ⟨rfl, (Option.some.inj hq).symm⟩
      | succ d =>
        rw [hnode] at hq
        cases hq
    refine ⟨⟨?_, ?_⟩, fun va ↦ leaf_none (hnode va 1)⟩
    · intro d d' k k' q hd hd' hk hk'
      obtain ⟨rfl, -⟩ := hroot k d q hk
      obtain ⟨rfl, -⟩ := hroot k' d' q hk'
      exact ⟨rfl, fun e he ↦ absurd he (Nat.not_lt_zero e)⟩
    · rintro q ⟨k, d, -, hq⟩
      obtain ⟨-, rfl⟩ := hroot k d q hq
      change r1.quota q ≠ 0
      rw [hquota, update_self]
      decide

/-- The range of `uvmunmap` is aligned. -/
theorem toNat_end {va : BitVec 64} (npages : BitVec 64) (hva : va % pgsize = 0) :
    va.toNat % 4096 = 0 ∧ (va + npages * pgsize).toNat % 4096 = 0 := by
  have haligned : va.toNat % 4096 = 0 := by
    have h := congrArg BitVec.toNat hva
    rw [BitVec.toNat_umod] at h
    exact h
  refine ⟨haligned, ?_⟩
  rw [BitVec.toNat_add, BitVec.toNat_mul]
  change (va.toNat + npages.toNat * 4096 % 18446744073709551616) % 18446744073709551616 % 4096 = 0
  omega

/-- `uvmunmap`, on the pages of its range. -/
theorem uvmunmap_unmaps {va npages : BitVec 64} {doFree : Bool} (h : Tree pagetable r)
    (hforeign : ∀ va' < maxva, va ≤ va' → va' < va + npages * pgsize →
      ∀ e, leaf pagetable r va' = some e → Foreign pagetable r doFree e) :
    ((∃ r', uvmunmap pagetable va npages doFree r = some r') ↔ va % pgsize = 0 ∧
      (va < va + npages * pgsize → va + npages * pgsize ≤ maxva) ∧
      ∀ va' < maxva, va ≤ va' → va' < va + npages * pgsize →
        ∀ e, leaf pagetable r va' = some e → Unmappable r.kend doFree e) ∧
    ∀ r', uvmunmap pagetable va npages doFree r = some r' → Tree pagetable r' ∧
      ∀ va' < maxva, leaf pagetable r' va' =
        if va ≤ va' ∧ va' < va + npages * pgsize then none else leaf pagetable r va' := by
  rw [uvmunmap]
  by_cases hva : va % pgsize = 0
  · obtain ⟨haligned, hend⟩ := toNat_end npages hva
    have hcount : (va + npages * pgsize).toNat - va.toNat =
        ((va + npages * pgsize).toNat - va.toNat) / 4096 * 4096 := by omega
    obtain ⟨hiff, hall⟩ := uvmunmapLoop_unmaps h haligned hend hcount hforeign
    rw [if_neg (fun h ↦ h hva)]
    exact ⟨hiff.trans (iff_and_self.mpr fun _ ↦ hva), hall⟩
  · rw [if_pos hva]
    refine ⟨⟨fun hex ↦ ?_, fun hall ↦ absurd hall.1 hva⟩, fun r' hr' ↦ by cases hr'⟩
    obtain ⟨_, hr'⟩ := hex
    cases hr'

/-- In every run no page is used as two nodes. -/
theorem Built.tree (h : Built pagetable r) : Tree pagetable r := by
  induction h with
  | create h => exact (uvmcreate_tree h).1
  | walk _ hwalk ih =>
    obtain ⟨o, ho, hwalked⟩ := walk_alloc ih (walk_lt hwalk)
    cases hwalk.symm.trans ho
    exact hwalked.tree
  | mappages _ hmap ih => exact mappagesLoop_tree ih hmap
  | uvmunmap _ hforeign hunmap ih =>
    refine ((uvmunmap_unmaps ih fun va' hva' hle hlt e he ↦ ?_).2 _ hunmap).1
    exact hforeign va' hva' hle hlt e ((lookup_eq hva').trans he)
  | other _ hframe ih => exact (ih.frame hframe).1

/-- The page and the flags of an entry that `mappages` wrote. -/
theorem mapped_decodes (pa : BitVec 64) {perm : BitVec 64} (k : Nat) (h : pteFlags perm = perm) :
    pte2pa (mapped pa perm k) = pgrounddown (pa + BitVec.ofNat 64 (k * 4096)) ∧
      pteFlags (mapped pa perm k) = perm ||| pteV := by
  have hflags : pteFlags (perm ||| pteV) = perm ||| pteV := by
    refine BitVec.eq_of_getLsbD_eq fun i hi ↦ ?_
    rw [bit_pteFlags, BitVec.getLsbD_or, bit_pteV]
    have hperm : perm.getLsbD i = (perm.getLsbD i && decide (i < 10)) := by
      rw [← bit_pteFlags, h]
    by_cases hlow : i < 10
    · rw [decide_eq_true hlow, Bool.and_true]
    · rw [hperm, decide_eq_false hlow, decide_eq_false (show ¬ i < 1 by omega)]
      simp only [Bool.and_false, Bool.or_false]
  rw [mapped, BitVec.or_assoc]
  exact ⟨pte2pa_entry _ hflags, pteFlags_entry _ hflags⟩

private theorem vpn_pgrounddown (a : BitVec 64) : vpn (pgrounddown a) = vpn a := by
  rw [vpn, vpn, toNat_pgrounddown, Nat.mul_div_cancel _ (by decide)]

/-- `mappages`, on a range that is not empty and of which no page is mapped. -/
theorem mappages_maps {va size : BitVec 64} (pa perm : BitVec 64) (h : Tree pagetable r)
    (hsize : 0 < size) (hend : va.toNat + size.toNat ≤ maxva.toNat)
    (hnone : ∀ va' < maxva, vpn va ≤ vpn va' → vpn va' ≤ vpn (va + size - 1) →
      leaf pagetable r va' = none) :
    ∃ ret r' m, mappages pagetable va size pa perm r = some (ret, r') ∧
      ((ret = 0 ∧ m = vpn (va + size - 1) - vpn va + 1) ∨
        (ret = -1 ∧ m ≤ vpn (va + size - 1) - vpn va)) ∧
      ∀ va' < maxva, leaf pagetable r' va' =
        if vpn va ≤ vpn va' ∧ vpn va' < vpn va + m then some (mapped pa perm (vpn va' - vpn va))
        else leaf pagetable r va' := by
  have hmax : maxva.toNat = 0x4000000000 := rfl
  have hpos : 0 < size.toNat := hsize
  have hsum : (va + size).toNat = va.toNat + size.toNat := by
    rw [BitVec.toNat_add]
    exact Nat.mod_eq_of_lt (show va.toNat + size.toNat < 2 ^ 64 by omega)
  have hlast : (va + size - 1).toNat = va.toNat + size.toNat - 1 := by
    rw [BitVec.toNat_sub, hsum]
    change (18446744073709551616 - 1 + (va.toNat + size.toNat)) % 18446744073709551616 = _
    omega
  have hlt : pgrounddown (va + size - 1) < maxva := by
    rw [BitVec.lt_def, toNat_pgrounddown, hlast]
    omega
  have hcount : (pgrounddown va).toNat + (vpn (va + size - 1) - vpn va) * 4096 =
      (pgrounddown (va + size - 1)).toNat := by
    rw [toNat_pgrounddown, toNat_pgrounddown, vpn, vpn, hlast]
    omega
  have hnone' : ∀ va' < maxva, vpn (pgrounddown va) ≤ vpn va' →
      vpn va' ≤ vpn (pgrounddown (va + size - 1)) → leaf pagetable r va' = none := by
    rw [vpn_pgrounddown, vpn_pgrounddown]
    exact hnone
  have hloop := mappagesLoop_maps hlt perm pa h hcount hnone'
  rw [vpn_pgrounddown] at hloop
  exact hloop

/-- The table is a map from page numbers below `MAXVA` to entries, which `lookup` reads, and the
routines on it do what they should to the map. The range of `uvmunmap` is the one that it computes
in 64 bits. -/
structure IsMap (pagetable : BitVec 64) (r : Ram) : Prop where
  page : ∀ va < maxva, ∀ va' < maxva, vpn va = vpn va' →
    lookup pagetable va r = lookup pagetable va' r
  slot : ∀ va < maxva, ∀ va' < maxva, vpn va ≠ vpn va' → ∀ pte pte',
    leafSlot pagetable va r = some pte → leafSlot pagetable va' r = some pte' → pte ≠ pte'
  mappages : ∀ va size pa perm, 0 < size → va.toNat + size.toNat ≤ maxva.toNat →
    (∀ va' < maxva, vpn va ≤ vpn va' → vpn va' ≤ vpn (va + size - 1) →
      lookup pagetable va' r = none) →
    ∃ ret r' m, mappages pagetable va size pa perm r = some (ret, r') ∧
      ((ret = 0 ∧ m = vpn (va + size - 1) - vpn va + 1) ∨
        (ret = -1 ∧ m ≤ vpn (va + size - 1) - vpn va)) ∧
      ∀ va' < maxva, lookup pagetable va' r' =
        if vpn va ≤ vpn va' ∧ vpn va' < vpn va + m then some (mapped pa perm (vpn va' - vpn va))
        else lookup pagetable va' r
  entry : ∀ pa perm k, pteFlags perm = perm →
    pte2pa (mapped pa perm k) = pgrounddown (pa + BitVec.ofNat 64 (k * 4096)) ∧
      pteFlags (mapped pa perm k) = perm ||| pteV
  uvmunmap : ∀ va npages doFree,
    (∀ va' < maxva, va ≤ va' → va' < va + npages * pgsize → ∀ e, lookup pagetable va' r = some e →
      Foreign pagetable r doFree e) →
    ((∃ r', uvmunmap pagetable va npages doFree r = some r') ↔ va % pgsize = 0 ∧
      (va < va + npages * pgsize → va + npages * pgsize ≤ maxva) ∧
      ∀ va' < maxva, va ≤ va' → va' < va + npages * pgsize →
        ∀ e, lookup pagetable va' r = some e → Unmappable r.kend doFree e) ∧
    ∀ r', uvmunmap pagetable va npages doFree r = some r' → ∀ va' < maxva, lookup pagetable va' r' =
      if va ≤ va' ∧ va' < va + npages * pgsize then none else lookup pagetable va' r
  walkaddr : ∀ va < maxuva, walkaddr pagetable va r =
    some (((lookup pagetable va r).filter fun e ↦ e &&& pteU ≠ 0).elim 0 pte2pa)

/-- In every run the table is a map from page numbers to entries. -/
theorem built_isMap (h : Built pagetable r) : IsMap pagetable r where
  page va hva va' hva' hpage := by
    rw [lookup_eq hva, lookup_eq hva', leaf_page hva hva' hpage]
  slot va hva va' hva' hne pte pte' hslot hslot' := by
    rintro rfl
    exact hne (h.tree.slot_inj hva hva' hslot hslot')
  mappages va size pa perm hsize hend hnone := by
    have hnone' : ∀ va' < maxva, vpn va ≤ vpn va' → vpn va' ≤ vpn (va + size - 1) →
        leaf pagetable r va' = none := by
      intro va' hva' hfirst hlast
      rw [← lookup_eq hva']
      exact hnone va' hva' hfirst hlast
    obtain ⟨ret, r', m, hmap, hm, hleaf⟩ := mappages_maps pa perm h.tree hsize hend hnone'
    refine ⟨ret, r', m, hmap, hm, fun va' hva' ↦ ?_⟩
    rw [lookup_eq hva', lookup_eq hva']
    exact hleaf va' hva'
  entry pa perm k hperm := mapped_decodes pa k hperm
  uvmunmap va npages doFree hforeign := by
    have hforeign' : ∀ va' < maxva, va ≤ va' → va' < va + npages * pgsize →
        ∀ e, leaf pagetable r va' = some e → Foreign pagetable r doFree e := by
      intro va' hva' hle hlt e he
      exact hforeign va' hva' hle hlt e ((lookup_eq hva').trans he)
    obtain ⟨hiff, hall⟩ := uvmunmap_unmaps h.tree hforeign'
    refine ⟨hiff.trans (and_congr_right' (and_congr_right' ?_)), fun r' hr' va' hva' ↦ ?_⟩
    · refine forall₂_congr fun va' hva' ↦ ?_
      rw [lookup_eq hva']
    · rw [lookup_eq hva', lookup_eq hva']
      exact (hall r' hr').2 va' hva'
  walkaddr _ hva := walkaddr_eq hva

/-- A memory in which four pages are free. -/
def start : Ram where
  word := fun _ _ ↦ 0
  quota := fun _ ↦ 0
  kend := 0x80200000
  answers := [⟨0x80500000, by decide, by decide⟩, ⟨0x80501000, by decide, by decide⟩,
    ⟨0x80502000, by decide, by decide⟩, ⟨0x80503000, by decide, by decide⟩]

/-- Two pages are mapped, in two tables of the lowest level, and the first is unmapped again. -/
theorem built_isMap_unmapped : ∃ o r,
    mappages 0x80500000 0x1FF000 8192 0x80400000 0x16 (uvmcreate start).2 = some (0, o) ∧
      lookup 0x80500000 0x1FF000 o = some (mapped 0x80400000 0x16 0) ∧
      uvmunmap 0x80500000 0x1FF000 1 false o = some r ∧
      lookup 0x80500000 0x1FF000 r = none ∧
      lookup 0x80500000 0x200000 r = some (mapped 0x80400000 0x16 1) ∧ IsMap 0x80500000 r := by
  have hcheck : ((mappages 0x80500000 0x1FF000 8192 0x80400000 0x16 (uvmcreate start).2).any fun o ↦
      o.1 = 0 ∧ lookup 0x80500000 0x1FF000 o.2 = some (mapped 0x80400000 0x16 0) ∧
        (uvmunmap 0x80500000 0x1FF000 1 false o.2).any fun r ↦
          lookup 0x80500000 0x1FF000 r = none ∧
            lookup 0x80500000 0x200000 r = some (mapped 0x80400000 0x16 1)) = true := by
    decide +kernel
  obtain ⟨⟨ret, o⟩, hmap, ho⟩ := (Option.any_eq_true _ _).mp hcheck
  obtain ⟨hret, hfirst, hunmap⟩ := of_decide_eq_true ho
  obtain rfl : ret = 0 := hret
  obtain ⟨r, hr, hlookup⟩ := (Option.any_eq_true _ _).mp hunmap
  obtain ⟨hgone, hsecond⟩ := of_decide_eq_true hlookup
  refine ⟨o, r, hmap, hfirst, hr, hgone, hsecond, ?_⟩
  have hbuilt : Built 0x80500000 o := .mappages (.create (r := start) rfl) hmap
  have hforeign : ∀ e, Foreign 0x80500000 o false e := fun _ hfree ↦ Bool.noConfusion hfree
  exact built_isMap (.uvmunmap hbuilt (fun _ _ _ _ e _ ↦ hforeign e) hr)

end Xv6K210.Sv39
