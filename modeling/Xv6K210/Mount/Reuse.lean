import Xv6K210.Mount.Dirlookup

/-!
# Deleted slots

Source `kernel/fs/fat32.c:852–878`. `dirlookup` leaves the start of the deleted slots at the end of
the directory in `*poff`, and not the start of the first ones that an entry of the name fits into:
the result of `enext` is compared before it is assigned to `type`. Where no entry stands behind such
slots the two are the same, and a directory in which names come and go does not grow.
-/

namespace Xv6K210.Mount

open Xv6K210.Base Xv6K210.Ecache Xv6K210.Fs Prog

/-! ### Runs of deleted slots -/

/-- The slot is a deleted one. -/
def emptyAt (items : List DirItem) (k : Nat) : Bool :=
  match (slotsOf items)[k]? with
  | some de => de.getD 0 0 == emptyEntry
  | none => false

/-- From slot `k` on there are `n` deleted ones. -/
def EmptyRun (items : List DirItem) (n k : Nat) : Prop := ∀ j < n, emptyAt items (k + j) = true

/-- The first run of `n` deleted slots. -/
def FirstRun (items : List DirItem) (n k : Nat) : Prop :=
  EmptyRun items n k ∧ ∀ k' < k, ¬ EmptyRun items n k'

instance (items : List DirItem) (n k : Nat) : Decidable (EmptyRun items n k) :=
  inferInstanceAs (Decidable (∀ j < n, emptyAt items (k + j) = true))

instance (items : List DirItem) (n k : Nat) : Decidable (FirstRun items n k) :=
  inferInstanceAs (Decidable (_ ∧ ∀ k' < k, ¬ EmptyRun items n k'))

variable {items : List DirItem}

private theorem emptyAt_lt {k : Nat} (h : emptyAt items k = true) : k < (slotsOf items).length := by
  unfold emptyAt at h
  by_contra hge
  rw [List.getElem?_eq_none (Nat.not_lt.mp hge)] at h
  cases h

private theorem emptyAt_append (pre : List DirItem) (k : Nat) :
    emptyAt (pre ++ items) ((slotsOf pre).length + k) = emptyAt items k := by
  unfold emptyAt
  rw [slotsOf_append, List.getElem?_append_right (Nat.le_add_right _ _), Nat.add_sub_cancel_left]

/-- Behind the last entry the slots are deleted ones. -/
theorem emptyAt_tail (hwf : ∀ it ∈ items, it.Wf) {k : Nat} (hk : tailSlot items ≤ k)
    (hlt : k < (slotsOf items).length) : emptyAt items k = true := by
  obtain ⟨body, dels, rfl, -, htail⟩ := exists_trimmed items
  obtain ⟨j, rfl⟩ := Nat.exists_eq_add_of_le hk
  rw [htail] at hlt ⊢
  rw [slotsOf_append, slotsOf_deleted, List.length_append] at hlt
  have hj : j < dels.length := by omega
  rw [emptyAt_append]
  unfold emptyAt
  rw [slotsOf_deleted, List.getElem?_eq_getElem hj]
  have := hwf (.deleted dels[j])
    (List.mem_append_right _ (List.mem_map_of_mem (List.getElem_mem hj)))
  exact beq_iff_eq.mpr this.2

/-- The deleted slots at the end are the first run exactly if no run stands in front of an entry. -/
theorem firstRun_tail_iff (hwf : ∀ it ∈ items, it.Wf) {n : Nat} :
    (∀ k, FirstRun items n k → tailSlot items = k) ↔
      ∀ k, EmptyRun items n k → tailSlot items ≤ k := by
  constructor
  · intro h k hk
    obtain ⟨m, hm, hleast⟩ : ∃ m, EmptyRun items n m ∧ ∀ k' < m, ¬ EmptyRun items n k' :=
      ⟨Nat.find ⟨k, hk⟩, Nat.find_spec ⟨k, hk⟩, fun _ ↦ Nat.find_min ⟨k, hk⟩⟩
    rw [h m ⟨hm, hleast⟩]
    by_contra hlt
    exact hleast k (Nat.not_le.mp hlt) hk
  · rintro h k ⟨hk, hleast⟩
    have hle := h k hk
    by_contra hne
    apply hleast (tailSlot items) (by omega)
    intro j hj
    have hlt := emptyAt_lt (hk j hj)
    exact emptyAt_tail hwf (Nat.le_add_right _ _) (by omega)

/-! ### How long a directory gets -/

private theorem tailSlot_live (dels : List (List UInt8)) (longs : List (List UInt8))
    (short : List UInt8)
    (rest : List DirItem) :
    tailSlot (dels.map .deleted ++ .live longs short :: rest) =
      dels.length + (longs.length + 1) + tailSlot rest := by
  induction dels with
  | nil =>
    rw [List.map_nil, List.nil_append, tailSlot, if_neg (by simp [isDeleted])]
    simp [DirItem.slots]
  | cons de dels ih =>
    rw [List.map_cons, List.cons_append, tailSlot, if_neg (by simp [isDeleted]), ih]
    simp only [DirItem.slots, List.length_cons, List.length_nil]
    omega

/-- If no `m` deleted slots stand in front of an entry, the entries and the slots between them are
not many. -/
theorem tailSlot_le_of_dense {m K : Nat} (hm : m ≤ K) :
    ∀ (fuel : Nat) {items : List DirItem} (p : Nat),
    items.length ≤ fuel → (∀ it ∈ items, it.Wf) → (∀ it ∈ items, it.slots.length ≤ K) →
    (∀ k, EmptyRun items m k → tailSlot items ≤ k) →
    tailSlot items ≤ (entriesFrom p items).length * (2 * K)
  | 0, items, p, hfuel, _, _, _ => by
    rw [List.eq_nil_of_length_eq_zero (Nat.le_zero.mp hfuel)]
    exact Nat.zero_le _
  | fuel + 1, items, p, hfuel, hwf, hK, hrun => by
    obtain ⟨dels, rest, rfl, hrest⟩ := split_deleted items
    cases rest with
    | nil =>
      have htail : tailSlot (dels.map .deleted ++ []) = 0 := by
        cases dels with
        | nil => rfl
        | cons de dels =>
          rw [List.map_cons, List.cons_append, tailSlot, if_pos]
          simp [isDeleted]
      rw [htail]
      exact Nat.zero_le _
    | cons it tail =>
      cases it with
      | deleted de => exact absurd rfl (hrest de tail)
      | live longs short =>
        rw [tailSlot_live] at hrun ⊢
        have hslots : longs.length + 1 ≤ K := by
          have := hK (.live longs short) (List.mem_append_right _ List.mem_cons_self)
          simpa [DirItem.slots] using this
        -- the deleted slots in front are fewer than `m`
        have hshort : dels.length < m := by
          by_contra hge
          have hfirst : EmptyRun (dels.map .deleted ++ .live longs short :: tail) m 0 := by
            intro j hj
            have hjd : j < dels.length := by omega
            unfold emptyAt
            rw [slotsOf_deleted_append, Nat.zero_add, List.getElem?_append_left hjd,
              List.getElem?_eq_getElem hjd]
            have := hwf (.deleted dels[j])
              (List.mem_append_left _ (List.mem_map_of_mem (List.getElem_mem hjd)))
            exact beq_iff_eq.mpr this.2
          have := hrun 0 hfirst
          omega
        have hpre : ((dels.map .deleted ++ [DirItem.live longs short]) ++ tail) =
            dels.map .deleted ++ .live longs short :: tail := by simp
        have hlen : (slotsOf (dels.map .deleted ++ [DirItem.live longs short])).length =
            dels.length + (longs.length + 1) := by
          rw [slotsOf_deleted_append, List.length_append, slotsOf_singleton]
          simp [DirItem.slots]
        have ih : tailSlot tail ≤
            (entriesFrom (p + dels.length + longs.length + 1) tail).length * (2 * K) :=
          tailSlot_le_of_dense hm fuel _ (by
            rw [List.length_append, List.length_cons] at hfuel
            omega)
          (fun it hit ↦ hwf it (List.mem_append_right _ (List.mem_cons_of_mem _ hit)))
          (fun it hit ↦ hK it (List.mem_append_right _ (List.mem_cons_of_mem _ hit)))
          (by
            intro k hk
            have hshift : EmptyRun (dels.map .deleted ++ .live longs short :: tail) m
                (dels.length + (longs.length + 1) + k) := by
              intro j hj
              rw [← hpre, Nat.add_assoc, ← hlen, emptyAt_append]
              exact hk j hj
            have := hrun _ hshift
            omega)
        rw [entriesFrom_deleted, entriesFrom, List.length_cons, Nat.add_mul]
        omega

/-! ### Names that come and go -/

/-- A directory on a volume. -/
structure Folder where
  vol : Volume
  dp : Fs.Dirent

/-- A name is created, with the slot of the cache that the search fills, or an entry is removed. -/
inductive Change where
  | create (name : List UInt8) (kind : NodeKind) (slot : Fs.Dirent)
  | remove (e : Fs.Dirent)

/-- `ealloc` of a name that is not cached. -/
def Folder.create (d : Folder) (name : List UInt8) (kind : NodeKind) (slot : Fs.Dirent) :
    Except Panic Folder := do
  let r ← searchDir d.vol name d.dp slot
  if r.found then
    return ⟨d.vol, r.dp⟩
  else
    let (v, dp, _) ← eallocNew d.vol 0 r.dp name kind.attr r.off
    return ⟨v, dp⟩

/-- `eremove`. -/
def Folder.remove (d : Folder) (e : Fs.Dirent) : Except Panic Folder := do
  let (v, dp, _) ← eremove d.vol d.dp e
  return ⟨v, dp⟩

/-- The directory is well formed, and the chain `i` of the volume. -/
structure Folder.Well (d : Folder) (i : Nat) (chain : Nat → List Nat) (items : List DirItem) :
    Prop where
  wf : FatWf d.vol chain
  reserved : d.vol.fat 1 ≠ 0
  live : LiveDir d.vol (chain i) d.dp
  whole : WholeDir d.vol (chain i) items

/-- A name that can be created: it is read back as it was written, no entry stands behind deleted
slots that it fits into, and there is room. -/
structure Creatable (d : Folder) (name : List UInt8) : Prop where
  formatted : formatname name = some name
  nonempty : name ≠ []
  head : name.head? ≠ some emptyEntry
  dense : ∀ l items, LiveDir d.vol l d.dp → WholeDir d.vol l items →
    ∀ k, EmptyRun items (longCount name + 1) k → tailSlot items ≤ k
  room : ∀ l items, LiveDir d.vol l d.dp → WholeDir d.vol l items →
    32 * (tailSlot items + (longCount name + 1)) < 2 ^ 32 ∧
      1 + (clustersFor d.vol.geom (32 * (tailSlot items + (longCount name + 1))) - l.length) ≤
        freeCount d.vol

/-- An entry with a long name, as `ealloc` makes them. -/
def Removable (d : Folder) (e : Fs.Dirent) : Prop :=
  e.valid = 1 ∧ ∃ es1 cnt x es2,
    listing d.vol d.dp = .ok (es1 ++ (e.off, cnt, x) :: es2) ∧ cnt ≠ 1

/-- A change of a directory with at most `n` entries, of at most `K` slots each. -/
def Folder.Step (K n : Nat) (d : Folder) : Change → Folder → Prop
  | .create name kind slot, d' => Creatable d name ∧ longCount name + 1 ≤ K ∧ slot.valid = 0 ∧
      d.create name kind slot = .ok d' ∧ ∀ es, listing d'.vol d'.dp = .ok es → es.length ≤ n
  | .remove e, d' => Removable d e ∧ d.remove e = .ok d'

/-- The directory has at most `n` entries, of at most `K` slots each, and its chain is no longer
than `m`. -/
structure Folder.Bounded (K n i m : Nat) (g : Geom) (d : Folder) (chain : Nat → List Nat)
    (items : List DirItem) : Prop where
  well : d.Well i chain items
  geom : d.vol.geom = g
  slots : ∀ it ∈ items, it.slots.length ≤ K
  few : (entriesFrom 0 items).length ≤ n
  short : (chain i).length ≤ m

variable {K n i m : Nat} {g : Geom} {d d' : Folder} {chain : Nat → List Nat}

/-- `eremove` keeps a folder bounded. -/
theorem Folder.Bounded.remove {e : Fs.Dirent} (h : d.Bounded K n i m g chain items)
    (hrem : Removable d e) (hrun : d.remove e = .ok d') :
    ∃ items', d'.Bounded K n i m g chain items' := by
  obtain ⟨hv, es1, cnt, x, es2, hlist, hcnt⟩ := hrem
  have hwhole := h.well.whole
  rw [listing_image h.well.live hwhole.image] at hlist
  obtain ⟨pre, longs, short, post, rfl, -, hoff, hlen, -, -⟩ :=
    entriesFrom_split items 0 (Except.ok.inj hlist)
  rw [Nat.zero_add] at hoff
  have himg := hwhole.image
  have hcount : derivedCount d.vol (chain i) e.off = longs.length := by
    rw [hoff, derivedCount_eq_iff himg]
    left
    omega
  rw [show pre ++ .live longs short :: post = pre ++ [.live longs short] ++ post by simp] at himg
  obtain ⟨v', dp', e', hrm, hfr, -, hlive, hkept, himg'⟩ :=
    remove_own h.well.live hv himg hoff hcount
  unfold Folder.remove at hrun
  rw [hrm] at hrun
  cases hrun
  have hslots : (slotsOf
    (pre ++ ((longs ++ [short]).map markDeleted).map .deleted ++ post)).length =
      (slotsOf (pre ++ .live longs short :: post)).length := by
    simp only [slotsOf_append, slotsOf_deleted, slotsOf_cons, List.length_append, List.length_map,
      List.length_singleton, DirItem.slots]
    omega
  have hentries : (entriesFrom 0
      (pre ++ ((longs ++ [short]).map markDeleted).map .deleted ++ post)).Sublist
      (entriesFrom 0 (pre ++ .live longs short :: post)) := by
    rw [List.append_assoc, entriesFrom_append, entriesFrom_deleted, entriesFrom_append, entriesFrom]
    simp only [List.length_map, List.length_append, List.length_singleton, ← Nat.add_assoc]
    exact (List.Sublist.refl _).append (List.sublist_cons_self _ _)
  refine ⟨_, ⟨⟨⟨?_, ?_⟩, ?_, hlive, himg', ?_, ?_⟩, hfr.geom.trans h.geom, ?_, ?_, h.short⟩⟩
  · rw [hfr.fat, hfr.geom]
    exact h.well.wf.forest
  · rw [hfr.fat]
    exact h.well.wf.reserved
  · rw [hfr.fat]
    exact h.well.reserved
  · intro k hk hin
    rw [hslots] at hk
    rw [hfr.geom] at hin
    rw [hkept _ hin, hwhole.marks k hk hin]
    intro j hj
    have : (slotsOf pre).length + (longs.length + 1) ≤
        (slotsOf (pre ++ .live longs short :: post)).length := by
      simp only [slotsOf_append, slotsOf_cons, List.length_append, DirItem.slots,
        List.length_singleton]
      omega
    omega
  · exact fun x hx ↦ hwhole.names x (hentries.subset hx)
  · have hone : longs.length + 1 ≤ K := by
      have := h.slots (.live longs short) (List.mem_append_right _ List.mem_cons_self)
      simpa [DirItem.slots] using this
    intro it hit
    rw [List.mem_append, List.mem_append] at hit
    rcases hit with (hit | hit) | hit
    · exact h.slots it (List.mem_append_left _ hit)
    · obtain ⟨de, -, rfl⟩ := List.mem_map.mp hit
      simp only [DirItem.slots, List.length_singleton]
      omega
    · exact h.slots it (List.mem_append_right _ (List.mem_cons_of_mem _ hit))
  · exact hentries.length_le.trans h.few

/-- Making an entry keeps a folder bounded. -/
theorem Folder.Bounded.create {name : List UInt8} {kind : NodeKind} {slot : Fs.Dirent}
    (hm : clustersFor g (32 * (n * (2 * K) + K)) ≤ m) (h : d.Bounded K n i m g chain items)
    (hname : Creatable d name) (hK : longCount name + 1 ≤ K) (hslot : slot.valid = 0)
    (hrun : d.create name kind slot = .ok d')
    (hfew : ∀ es, listing d'.vol d'.dp = .ok es → es.length ≤ n) :
    ∃ chain' items', d'.Bounded K n i m g chain' items' := by
  have hlive := h.well.live
  have hwhole := h.well.whole
  obtain ⟨r, hsearch, hs⟩ :=
    searchDir_image (visible_of_ne hname.nonempty _) hlive hslot hwhole.image
  have hlive1 := hlive.move hs.same hs.onChain
  unfold Folder.create at hrun
  rw [hsearch] at hrun
  simp only [bind, Except.bind] at hrun
  split_ifs at hrun with hfound
  · cases hrun
    exact ⟨chain, items, ⟨⟨h.well.wf, h.well.reserved, hlive1, hwhole⟩, h.geom, h.slots, h.few,
      h.short⟩⟩
  · have hoff : r.off = 32 * tailSlot items := by
      cases hfind : (entriesFrom 0 items).find? (hasName name) with
      | none => exact (hs.miss hfind).2
      | some e => exact absurd (hs.hit e hfind).found hfound
    obtain ⟨hb, hroom⟩ := hname.room (chain i) items hlive hwhole
    have htail := tailSlot_le_of_dense hK items.length 0 (Nat.le_refl _) hwhole.image.wf h.slots
      (hname.dense (chain i) items hlive hwhole)
    have hmul : (entriesFrom 0 items).length * (2 * K) ≤ n * (2 * K) :=
      Nat.mul_le_mul_right _ h.few
    obtain ⟨body, dels, rfl, -, hbody⟩ := exists_trimmed items
    rw [hbody] at hoff hb hroom htail
    obtain ⟨hchars, hfirst⟩ := formatname_spec hname.formatted
    obtain ⟨v', dp', ep', chain', hnew, hent, hrec, hep, -⟩ := eallocNew_entered kind 0
      h.well.wf h.well.reserved hlive1 hwhole hchars hfirst hb (by split_ifs <;> omega)
    rw [hoff, hnew] at hrun
    cases hrun
    have hlen : (madeItem ep' (32 * (slotsOf body).length)).slots.length ≤ longCount name + 1 := by
      have := longCount_take name fat32MaxFilename
      rw [madeItem_length, hep]
      split_ifs <;> omega
    have hhead : ep'.filename.head? ≠ some emptyEntry := by
      rw [hep]
      have := hname.head
      cases hcases : name with
      | nil => exact absurd hcases hname.nonempty
      | cons c t => rwa [hcases] at this
    have hwhole' := hent.whole (madeItem_wf hrec fun _ ↦ hhead) (madeItem_names hrec _ _)
    refine ⟨chain', _, ⟨⟨hent.wf, hent.reserved, hent.dir, hwhole'⟩, hent.geom.trans h.geom, ?_, ?_,
      ?_⟩⟩
    · intro it hit
      rw [List.mem_append, List.mem_cons] at hit
      rcases hit with hit | rfl | hit
      · exact h.slots it (List.mem_append_left _ hit)
      · exact hlen.trans hK
      · obtain ⟨de, -, rfl⟩ := List.mem_map.mp hit
        simp only [DirItem.slots, List.length_singleton]
        omega
    · exact hfew _ (listing_image hent.dir hwhole'.image)
    · refine hent.length.trans (max_le h.short (le_trans ?_ hm))
      rw [h.geom]
      exact clustersFor_mono (by omega)

/-- Names that come and go keep the directory as it was, or as long as `n` entries with the slots
between them need it. -/
theorem Folder.bounded_run {changes : List Change}
    (hm : clustersFor g (32 * (n * (2 * K) + K)) ≤ m) (h : d.Bounded K n i m g chain items)
    (hrun : Runs (Folder.Step K n) d changes d') :
    ∃ chain' items', d'.Bounded K n i m g chain' items' := by
  induction hrun generalizing chain items with
  | nil d => exact ⟨chain, items, h⟩
  | @cons d d1 d2 change changes head tail ih =>
    cases change with
    | create name kind slot =>
      obtain ⟨hname, hK, hslot, hcreate, hfew⟩ := head
      obtain ⟨chain1, items1, h1⟩ := h.create hm hname hK hslot hcreate hfew
      exact ih h1
    | remove e =>
      obtain ⟨hrem, hremove⟩ := head
      obtain ⟨items1, h1⟩ := h.remove hrem hremove
      exact ih h1

/-! ### Reuse -/

/-- The offset that `dirlookup` leaves is the start of the first run of deleted slots that the name
fits into exactly if no entry stands behind such a run; and if none does whenever a name is created,
the chain of the directory stays bounded. -/
theorem dirlookup_reuses {S : Type} [DecidableEq S] {st : Store S} {dp : Ent S} {i : Nat}
    {chain : Nat → List Nat} {items : List DirItem}
    (h : Folder.Well ⟨st.vol, st.dirent dp⟩ i chain items) :
    (∀ name s, name ≠ [] → name ≠ [dotCh] → name ≠ [dotCh, dotCh] →
      (entriesFrom 0 items).find? (fun e ↦ e.2.2.filename = name.take fat32MaxFilename) = none →
      (dp = .root ∨ 0 < (st.cache.ent dp).ref) → st.cache.hit dp name = none →
      st.cache.victim = some s →
      ∃ off st', dirlookup dp name st = .ok ((none, off), st') ∧
        ((∀ k, FirstRun items (longCount name + 1) k → off = 32 * k) ↔
          ∀ k, EmptyRun items (longCount name + 1) k → tailSlot items ≤ k)) ∧
    ∀ K n changes d', (∀ it ∈ items, it.slots.length ≤ K) → (entriesFrom 0 items).length ≤ n →
      Runs (Folder.Step K n) ⟨st.vol, st.dirent dp⟩ changes d' →
      ∃ chain' items', d'.Well i chain' items' ∧ (chain' i).length ≤
        max (chain i).length (clustersFor st.vol.geom (32 * (n * (2 * K) + K))) := by
  constructor
  · intro name s hname hdot hdots hfind hused hhit hvictim
    obtain ⟨⟨r, off⟩, st', hrun, -, hout⟩ := dirlookup_disk h.live h.whole.image
      (visible_of_ne hname _) hdot hdots hused hhit hvictim
    rw [← hasName_eq h.whole] at hfind
    cases hout with
    | found e first => rw [hfind] at first; cases first
    | missing _ result =>
      obtain ⟨rfl, rfl⟩ := Prod.mk.inj result
      refine ⟨_, st', hrun, ?_⟩
      rw [← firstRun_tail_iff h.whole.image.wf]
      refine forall_congr' fun k ↦ imp_congr_right fun _ ↦ ?_
      omega
  · intro K n changes d' hK hn hrun
    obtain ⟨chain', items', hb⟩ := Folder.bounded_run (le_max_right _ _)
      ⟨h, rfl, hK, hn, le_max_left _ _⟩ hrun
    exact ⟨chain', items', hb.well, hb.short⟩

/-- The folder of the small volume is well formed. -/
theorem smallFolder_well : Folder.Well
    ⟨(Store.boot 2 smallDir).vol, (Store.boot 2 smallDir).dirent .root⟩ 0
    (fun i ↦ if i = 0 then [2] else []) smallItems where
  wf := ⟨smallFs_integrity.table.forest, smallFs_integrity.table.reserved⟩
  reserved := by decide
  live := boot_live
  whole := smallDir_whole

/-- The name `c` is not in the small directory, and `ab` is removed from it. -/
theorem dirlookup_reuses_small :
    (∃ off st', dirlookup .root [0x63] (Store.boot 2 smallDir) = .ok ((none, off), st') ∧
      ∀ k, FirstRun smallItems 2 k → off = 32 * k) ∧
    ∃ d', Runs (Folder.Step 2 3) ⟨smallDir, (Store.boot 2 smallDir).dirent .root⟩
        [.remove (smallCached 0)] d' ∧
      ∃ chain' items', d'.Well 0 chain' items' ∧ (chain' 0).length ≤ 1 := by
  obtain ⟨hlookup, hbound⟩ := dirlookup_reuses smallFolder_well
  constructor
  · obtain ⟨off, st', hrun, hiff⟩ := hlookup [0x63] 0 (by decide) (by decide) (by decide)
      (by decide +kernel) (.inl rfl) (by decide) (by decide)
    refine ⟨off, st', hrun, hiff.mpr fun k hk ↦ ?_⟩
    have hlt := emptyAt_lt (hk 0 (by decide))
    have hnone : ∀ k < (slotsOf smallItems).length, emptyAt smallItems k = false := by
      decide +kernel
    have := hk 0 (by decide)
    rw [hnone _ hlt] at this
    cases this
  · have hlist := listing_image boot_live smallDir_image
    have himg : ImageFrom smallDir [2] 0 ([] ++ [DirItem.live [abLong] (emptyShort [0x41, 0x42])] ++
        [DirItem.live [] (emptyShort [0x40, 0x43]), .live [] (emptyShort [0x41])]) := smallDir_image
    have hcached : (smallCached 0).off = 32 * (slotsOf []).length := rfl
    obtain ⟨v', dp', e', hremove, -⟩ := remove_own boot_live rfl himg hcached (by decide)
    have hrun : Runs (Folder.Step 2 3) ⟨smallDir, (Store.boot 2 smallDir).dirent .root⟩
        [.remove (smallCached 0)] ⟨v', dp'⟩ := by
      refine .cons ⟨⟨rfl, [], 2, _, _, hlist, by decide⟩, ?_⟩ (.nil _)
      unfold Folder.remove
      rw [hremove]
      rfl
    obtain ⟨chain', items', hwell, hlen⟩ := hbound 2 3 _ _ (by decide) (by decide) hrun
    have hmax : max [2].length (clustersFor smallGeom (32 * (3 * (2 * 2) + 2))) = 1 := by decide
    exact ⟨⟨v', dp'⟩, hrun, chain', items', hwell, hlen.trans_eq hmax⟩

/-- Two deleted slots in front of the file `ab`. -/
def gapItems : List DirItem :=
  [.deleted (markDeleted abLong), .deleted (markDeleted (emptyShort [0x41])),
    .live [abLong] (emptyShort [0x41, 0x42])]

/-- The small volume with them in its root directory. -/
def gapDir : Volume :=
  { smallVolume with
    card := store smallVolume.card (Fs.smallGeom.clusAddr 2) (slotsOf gapItems).flatten }

private theorem gapDir_whole : WholeDir gapDir [2] gapItems where
  image := {
    wf := by
      intro it hit
      simp only [gapItems, List.mem_cons, List.not_mem_nil, or_false] at hit
      rcases hit with rfl | rfl | rfl
      · exact ⟨by decide, by decide⟩
      · exact ⟨by decide, by decide⟩
      · refine ⟨⟨?_, ?_, ?_, trivial⟩, ?_, ?_, ?_, ?_, ?_⟩ <;> decide
    slots := by
      rw [slotsAt_iff (by decide)]
      decide +kernel
    ends := .inr (by decide +kernel)
    bound := by decide }
  marks k hk hin := by
    have hlen : (slotsOf gapItems).length = 4 := rfl
    have hcap : [2].length * gapDir.geom.bytsPerClus = 512 := rfl
    have hmarks : ∀ j < 12, fileByte gapDir [2] (32 * (4 + j)) = endOfEntry := by decide +kernel
    have := hmarks (k - 4) (by omega)
    rwa [show 4 + (k - 4) = k by omega] at this
  names := by decide +kernel

/-- The name `c` needs the two slots in front of `ab`, and is to be written behind it. -/
theorem not_dirlookup_reuses : WholeDir gapDir [2] gapItems ∧ longCount [0x63] + 1 = 2 ∧
    FirstRun gapItems 2 0 ∧
    ∃ st', dirlookup .root [0x63] (Store.boot 2 gapDir) = .ok ((none, 128), st') := by
  have hlive : LiveDir gapDir [2] ((Store.boot 2 gapDir).dirent .root) :=
    ⟨⟨⟨by decide, by decide⟩, by decide⟩, by decide, ⟨rfl, fun _ ↦ rfl⟩, by decide, by decide, rfl⟩
  refine ⟨gapDir_whole, by decide, by decide +kernel, ?_⟩
  have hhit : (Store.boot 2 gapDir).cache.hit .root [0x63] = none := by decide
  have hvictim : (Store.boot 2 gapDir).cache.victim = some 0 := by decide
  have hname : Visible [0x63] gapItems := visible_of_ne (by decide) _
  obtain ⟨r, st', hrun, -, hout⟩ := dirlookup_disk hlive gapDir_whole.image hname (by decide)
    (by decide) (.inl rfl) hhit hvictim
  have hnone : (entriesFrom 0 gapItems).find? (hasName [0x63]) = none := by decide +kernel
  cases hout with
  | found e first => rw [hnone] at first; cases first
  | missing _ result =>
    have htail : tailSlot gapItems = 4 := by decide +kernel
    have hr : r = (none, 128) := by rw [result, htail]
    rw [hr] at hrun
    exact ⟨st', hrun⟩

end Xv6K210.Mount
